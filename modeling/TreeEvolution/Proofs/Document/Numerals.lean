import Mathlib.Data.List.TakeWhile
import TreeEvolution.Decimal.Written
import TreeEvolution.Document.Scalar
import TreeEvolution.Proofs.Decimal.Bits
import TreeEvolution.Proofs.Decimal.Shortest

/-!
# Numbers of documents read back

Numbers are written into documents so that they are read as numbers again, and as the same ones:
integers by their digits (`scalar?_toString`), and finite doubles by a decimal number with digits
before and after the point (`scalar?_write`), whose value is that of the shortest decimal.
-/

namespace TreeEvolution

/-! ### Beginnings of lists -/

/-- The items of a list that all have a property. -/
lemma span_of_forall {α : Type} {p : α → Bool} {l : List α} (h : ∀ x ∈ l, p x = true) :
    l.span p = (l, []) := by
  rw [List.span_eq_takeWhile_dropWhile, List.takeWhile_eq_self_iff.mpr h,
    List.dropWhile_eq_nil_iff.mpr h]

/-- The items of a list up to the first one without a property. -/
lemma span_append_cons {α : Type} {p : α → Bool} {l : List α} (h : ∀ x ∈ l, p x = true) {y : α}
    (hy : p y = false) (rest : List α) : (l ++ y :: rest).span p = (l, y :: rest) := by
  have hnot : ¬ p y = true := Bool.eq_false_iff.mp hy
  rw [List.span_eq_takeWhile_dropWhile, List.takeWhile_append_of_pos h,
    List.dropWhile_append_of_pos h, List.takeWhile_cons_of_neg hnot,
    List.dropWhile_cons_of_neg hnot, List.append_nil]

/-- What lacks a property of all items of a list is no item of it. -/
lemma not_mem_of_forall {α : Type} {p : α → Bool} {l : List α} (h : ∀ x ∈ l, p x = true) {y : α}
    (hy : p y = false) : y ∉ l := by
  intro hmem
  rw [h y hmem] at hy
  cases hy

/-- The items of a list differ from what lacks a property of theirs. -/
lemma forall_ne {α : Type} [DecidableEq α] {p : α → Bool} {l : List α} (h : ∀ x ∈ l, p x = true)
    {y : α} (hy : p y = false) : ∀ x ∈ l, decide (x ≠ y) = true := by
  intro x hx
  rw [decide_eq_true_iff]
  rintro rfl
  exact not_mem_of_forall h hy hx

/-! ### Digits -/

namespace Text

/-- Decimal digits stand for the number that they write. -/
lemma ofDigits_eq_ofDigitChars {digits : List Char} (h : ∀ c ∈ digits, c.isDigit = true) :
    ofDigits 10 digits = Nat.ofDigitChars 10 digits 0 := by
  rw [Nat.ofDigitChars_eq_foldl, ofDigits]
  refine List.foldl_ext _ _ _ fun n c hc => ?_
  rw [digitValue, if_pos (h c hc)]

/-- The digits of a number are digits. -/
lemma isDigit_toDigits (n : Nat) : ∀ c ∈ Nat.toDigits 10 n, c.isDigit = true :=
  fun _ hc => Nat.isDigit_of_mem_toDigits (by decide) (by decide) hc

/-- Zeros are digits. -/
lemma isDigit_zeros (k : Nat) : ∀ c ∈ List.replicate k '0', c.isDigit = true := by
  intro c hc
  rw [List.eq_of_mem_replicate hc]
  rfl

/-- A number is given by its digits. -/
lemma ofDigits_toDigits (n : Nat) : ofDigits 10 (Nat.toDigits 10 n) = n := by
  rw [ofDigits_eq_ofDigitChars (isDigit_toDigits n), Nat.ofDigitChars_ten_toDigits]

/-- Zeros in front do not matter to a number. -/
lemma ofDigits_zeros_append (k n : Nat) :
    ofDigits 10 (List.replicate k '0' ++ Nat.toDigits 10 n) = n := by
  rw [ofDigits_eq_ofDigitChars (List.forall_mem_append.mpr ⟨isDigit_zeros k, isDigit_toDigits n⟩),
    Nat.ofDigitChars_append, Nat.ofDigitChars_replicate_zero, Nat.mul_zero,
    Nat.ofDigitChars_ten_toDigits]

/-- Zeros at the end multiply a number by a power of ten. -/
lemma ofDigits_append_zeros (n k : Nat) :
    ofDigits 10 (Nat.toDigits 10 n ++ List.replicate k '0') = 10 ^ k * n := by
  rw [ofDigits_eq_ofDigitChars (List.forall_mem_append.mpr ⟨isDigit_toDigits n, isDigit_zeros k⟩),
    Nat.ofDigitChars_append, Nat.ofDigitChars_replicate_zero, Nat.ofDigitChars_ten_toDigits]

/-- Only zero has the digit of zero. -/
lemma digitChar_ne_zero : ∀ n < 10, 0 < n → n.digitChar ≠ '0' := by
  decide

/-- The digits of a positive number begin with another one than zero. -/
lemma head?_toDigits {n : Nat} (hn : 0 < n) : (Nat.toDigits 10 n).head? ≠ some '0' := by
  induction n using Nat.strongRecOn with
  | ind n ih =>
    rcases Nat.lt_or_ge n 10 with hlt | hge
    · rw [Nat.toDigits_of_lt_base hlt, List.head?_cons]
      exact mt Option.some.inj (digitChar_ne_zero n hlt hn)
    · rw [Nat.toDigits_of_base_le (by decide) hge,
        List.head?_append_of_ne_nil _ Nat.toDigits_ne_nil]
      exact ih (n / 10) (by omega) (by omega)

end Text

namespace Document

open Text

/-- Digits that may stand before the point: at least one, and no zero in front of others. -/
structure IsWhole (digits : List Char) : Prop where
  /-- There is a digit. -/
  ne_nil : digits ≠ []
  /-- There are digits only. -/
  isDigit : ∀ c ∈ digits, c.isDigit = true
  /-- A zero stands alone. -/
  length : digits.head? = some '0' → digits.length = 1

/-- Digits are read without anything between them. -/
lemma groupedDigits_of_isDigit {digits : List Char} (hne : digits ≠ [])
    (h : ∀ c ∈ digits, c.isDigit = true) : groupedDigits Char.isDigit digits = some digits := by
  induction digits with
  | nil => exact absurd rfl hne
  | cons c rest ih =>
    obtain ⟨hc, hrest⟩ := List.forall_mem_cons.mp h
    cases rest with
    | nil => rw [groupedDigits, if_pos hc]
    | cons d rest =>
      have hd : d ≠ '_' := by
        rintro rfl
        exact absurd (hrest '_' List.mem_cons_self) (by decide)
      rw [groupedDigits.eq_4 _ _ _ (fun h => List.cons_ne_nil _ _ h)
        (fun _ h => hd (List.cons.inj h).1), if_pos hc, ih (List.cons_ne_nil d rest) hrest,
        Option.map_some]

/-- What is read as digits has nothing but underscores between them. -/
lemma isDigit_of_groupedDigits {text digits : List Char}
    (h : groupedDigits Char.isDigit text = some digits) :
    ∀ c ∈ text, c.isDigit = true ∨ c = '_' := by
  fun_induction groupedDigits Char.isDigit text generalizing digits with
  | case1 => cases h
  | case2 c hc => exact fun d hd => .inl (List.mem_singleton.mp hd ▸ hc)
  | case3 => cases h
  | case4 c rest hc ih =>
    obtain ⟨further, hfurther, -⟩ := Option.map_eq_some_iff.mp h
    exact List.forall_mem_cons.mpr ⟨.inl hc, List.forall_mem_cons.mpr ⟨.inr rfl, ih hfurther⟩⟩
  | case5 => cases h
  | case6 c rest _ _ hc ih =>
    obtain ⟨further, hfurther, -⟩ := Option.map_eq_some_iff.mp h
    exact List.forall_mem_cons.mpr ⟨.inl hc, ih hfurther⟩
  | case7 => cases h

/-- The digits before a point are read. -/
lemma wholeDigits_of_isWhole {digits : List Char} (h : IsWhole digits) :
    wholeDigits digits = some digits := by
  rw [wholeDigits, groupedDigits_of_isDigit h.ne_nil h.isDigit]
  change (if (digits.head? = some '0' && digits.length ≠ 1) = true then none else some digits) =
    some digits
  refine if_neg ?_
  simpa using h.length

/-- The digits of a number, perhaps with zeros at the end. -/
lemma isWhole_toDigits_append {n : Nat} (k : Nat) (h : 0 < n ∨ k = 0) :
    IsWhole (Nat.toDigits 10 n ++ List.replicate k '0') where
  ne_nil := List.append_ne_nil_of_left_ne_nil Nat.toDigits_ne_nil _
  isDigit := List.forall_mem_append.mpr ⟨isDigit_toDigits n, isDigit_zeros k⟩
  length := by
    intro hhead
    rw [List.head?_append_of_ne_nil _ Nat.toDigits_ne_nil] at hhead
    rcases Nat.eq_zero_or_pos n with rfl | hn
    · obtain rfl := h.resolve_left (Nat.lt_irrefl 0)
      rfl
    · exact absurd hhead (head?_toDigits hn)

lemma isWhole_toDigits (n : Nat) : IsWhole (Nat.toDigits 10 n) := by
  have h := isWhole_toDigits_append (n := n) 0 (.inr rfl)
  rwa [List.replicate_zero, List.append_nil] at h

/-! ### Figures -/

/-- Whether a character may stand in a number. -/
def isFigure (c : Char) : Bool :=
  c.isDigit || c = '.' || c = '-'

/-- A text behind its sign; no sign stands for plus. -/
def signed (negative : Bool) (text : List Char) : List Char :=
  if negative then '-' :: text else text

lemma isFigure_of_isDigit {c : Char} (h : c.isDigit = true) : isFigure c = true := by
  rw [isFigure, h]
  rfl

/-- A sign is a figure. -/
lemma isFigure_signed {text : List Char} (h : ∀ c ∈ text, isFigure c = true) (negative : Bool) :
    ∀ c ∈ signed negative text, isFigure c = true := by
  cases negative with
  | false => exact h
  | true => exact List.forall_mem_cons.mpr ⟨rfl, h⟩

/-- The sign is taken off digits. -/
lemma takeSign_signed {c : Char} (hc : c.isDigit = true) (rest : List Char) (negative : Bool) :
    takeSign (signed negative (c :: rest)) = (negative, c :: rest) := by
  cases negative with
  | true => rfl
  | false =>
    refine takeSign.eq_3 _ (fun text h => ?_) (fun text h => ?_)
    · rw [(List.cons.inj h).1] at hc
      exact absurd hc (by decide)
    · rw [(List.cons.inj h).1] at hc
      exact absurd hc (by decide)

/-- A number is no time of the day. -/
lemma isTime_of_isFigure {text : List Char} (h : ∀ c ∈ text, isFigure c = true) :
    isTime text = false := by
  have hcolon : ∀ c ∈ text, decide (c ≠ ':') = true := forall_ne h rfl
  simp only [isTime, span_of_forall hcolon]
  cases fixedDigits 2 text <;> rfl

/-- A number is no integer in another base. -/
lemma integer?_of_isFigure {text : List Char} (h : ∀ c ∈ text, isFigure c = true) :
    integer? text = (wholeDigits (takeSign text).2).bind fun digits =>
      wordInteger (withSign (takeSign text).1 (ofDigits 10 digits)) := by
  refine integer?.eq_4 text (fun rest hrest => ?_) (fun rest hrest => ?_) (fun rest hrest => ?_)
  · exact not_mem_of_forall h (y := 'x') rfl (by simp [hrest])
  · exact not_mem_of_forall h (y := 'o') rfl (by simp [hrest])
  · exact not_mem_of_forall h (y := 'b') rfl (by simp [hrest])

/-- A number that is no date is read as a number. -/
lemma scalar?_of_isFigure {text : List Char} (h : ∀ c ∈ text, isFigure c = true)
    (hmoment : isMoment text = false) : scalar? text = (integer? text).or (float? text) := by
  have htrue : text ≠ ['t', 'r', 'u', 'e'] := fun heq =>
    not_mem_of_forall h (y := 't') rfl (by simp [heq])
  have hfalse : text ≠ ['f', 'a', 'l', 's', 'e'] := fun heq =>
    not_mem_of_forall h (y := 'f') rfl (by simp [heq])
  rw [scalar?, if_neg htrue, if_neg hfalse, if_neg (by rw [hmoment]; exact Bool.false_ne_true)]

/-! ### Integers -/

/-- The digits of an integer behind its sign. -/
lemma toList_toString (n : Int) :
    (toString n).toList = signed (decide (n < 0)) (Nat.toDigits 10 n.natAbs) := by
  rw [Int.toString_eq_repr, Int.repr_eq_if]
  by_cases h : 0 ≤ n
  · have habs : n.natAbs = n.toNat := by omega
    rw [if_pos h, Nat.toList_repr, decide_eq_false (by omega), habs]
    rfl
  · have habs : n.natAbs = (-n).toNat := by omega
    rw [if_neg h, String.toList_append, Nat.toList_repr, decide_eq_true (by omega), habs]
    rfl

/-- Integers are written with figures. -/
lemma isFigure_toString (n : Int) : ∀ c ∈ (toString n).toList, isFigure c = true := by
  rw [toList_toString]
  exact isFigure_signed (fun c hc => isFigure_of_isDigit (isDigit_toDigits _ c hc)) _

/-- An integer is no date. -/
lemma isDate_signed {digits : List Char} (h : ∀ c ∈ digits, c.isDigit = true)
    (negative : Bool) : isDate (signed negative digits) = false := by
  cases negative with
  | true => rfl
  | false =>
    have hdash : ∀ c ∈ digits, decide (c ≠ '-') = true := forall_ne h rfl
    change isDate digits = false
    simp only [isDate, span_of_forall hdash]
    cases fixedDigits 4 digits <;> rfl

/-- Whether a character may stand in a date. -/
lemma isDigit_or_dash_signed {digits : List Char} (h : ∀ c ∈ digits, c.isDigit = true)
    (negative : Bool) : ∀ c ∈ signed negative digits, (c.isDigit || c = '-') = true := by
  have hdigits : ∀ c ∈ digits, (c.isDigit || c = '-') = true := fun c hc => by
    rw [h c hc, Bool.true_or]
  cases negative with
  | false => exact hdigits
  | true => exact List.forall_mem_cons.mpr ⟨rfl, hdigits⟩

/-- An integer is no moment of time. -/
lemma isMoment_signed {digits : List Char} (h : ∀ c ∈ digits, c.isDigit = true)
    (negative : Bool) : isMoment (signed negative digits) = false := by
  have hfigures := isFigure_signed (fun c hc => isFigure_of_isDigit (h c hc)) negative
  simp only [isMoment, span_of_forall (isDigit_or_dash_signed h negative)]
  rw [isTime_of_isFigure hfigures, isDate_signed h negative]
  rfl

/-- Integers are read back. -/
lemma scalar?_toString {n : Int} (h : fitsWord n = true) :
    scalar? (toString n).toList = some (.integer n) := by
  have hdigits := isDigit_toDigits n.natAbs
  have hfigures := isFigure_signed (fun c hc => isFigure_of_isDigit (hdigits c hc)) (decide (n < 0))
  have hvalue : withSign (decide (n < 0)) n.natAbs = n := by
    unfold withSign
    split
    · next hneg =>
      have := of_decide_eq_true hneg
      omega
    · next hneg =>
      have := of_decide_eq_false (Bool.eq_false_iff.mpr hneg)
      omega
  obtain ⟨c, rest, hcons⟩ :=
    List.exists_cons_of_ne_nil (Nat.toDigits_ne_nil (n := n.natAbs) (b := 10))
  have hsign : takeSign (signed (decide (n < 0)) (Nat.toDigits 10 n.natAbs)) =
      (decide (n < 0), Nat.toDigits 10 n.natAbs) := by
    rw [hcons] at hdigits ⊢
    exact takeSign_signed (hdigits c List.mem_cons_self) rest _
  rw [toList_toString, scalar?_of_isFigure hfigures (isMoment_signed hdigits _),
    integer?_of_isFigure hfigures, hsign, wholeDigits_of_isWhole (isWhole_toDigits _),
    Option.bind_some, ofDigits_toDigits, hvalue, wordInteger, if_pos h, Option.some_or]

/-! ### Decimal numbers -/

/-- A decimal number in writing, with digits before and after the point. -/
structure Numeral where
  /-- The digits before the point. -/
  whole : List Char
  /-- The digits after the point. -/
  fraction : List Char
  /-- The digits before the point may stand there. -/
  isWhole : IsWhole whole
  /-- There is a digit after the point. -/
  fraction_ne_nil : fraction ≠ []
  /-- There are digits only. -/
  isDigit : ∀ c ∈ fraction, c.isDigit = true

namespace Numeral

/-- The letters of a decimal number. -/
def letters (n : Numeral) : List Char :=
  n.whole ++ '.' :: n.fraction

/-- The decimal that is written. -/
def scaled (n : Numeral) : Decimal.Scaled :=
  ⟨ofDigits 10 (n.whole ++ n.fraction), 0 - n.fraction.length⟩

lemma letters_eq_cons (n : Numeral) : ∃ c rest, n.letters = c :: rest ∧ c.isDigit = true := by
  obtain ⟨c, rest, hcons⟩ := List.exists_cons_of_ne_nil n.isWhole.ne_nil
  refine ⟨c, rest ++ '.' :: n.fraction, by rw [letters, hcons]; rfl, ?_⟩
  exact n.isWhole.isDigit c (hcons ▸ List.mem_cons_self)

lemma isFigure_letters (n : Numeral) : ∀ c ∈ n.letters, isFigure c = true :=
  List.forall_mem_append.mpr
    ⟨fun c hc => isFigure_of_isDigit (n.isWhole.isDigit c hc),
      List.forall_mem_cons.mpr ⟨rfl, fun c hc => isFigure_of_isDigit (n.isDigit c hc)⟩⟩

lemma takeSign_letters (n : Numeral) (negative : Bool) :
    takeSign (signed negative n.letters) = (negative, n.letters) := by
  obtain ⟨c, rest, hletters, hc⟩ := n.letters_eq_cons
  rw [hletters]
  exact takeSign_signed hc rest negative

/-- A decimal number is no moment of time. -/
lemma isMoment_letters (n : Numeral) (negative : Bool) :
    isMoment (signed negative n.letters) = false := by
  have hsigned : signed negative n.letters = signed negative n.whole ++ '.' :: n.fraction := by
    cases negative <;> rfl
  simp only [isMoment]
  rw [isTime_of_isFigure (isFigure_signed n.isFigure_letters negative), hsigned,
    span_append_cons (isDigit_or_dash_signed n.isWhole.isDigit negative) rfl]
  rfl

/-- A decimal number is no integer, because of the point. -/
lemma integer?_letters (n : Numeral) (negative : Bool) :
    integer? (signed negative n.letters) = none := by
  have hgrouped : groupedDigits Char.isDigit n.letters = none := by
    rcases hdigits : groupedDigits Char.isDigit n.letters with _ | digits
    · rfl
    · have hpoint := isDigit_of_groupedDigits hdigits '.'
        (List.mem_append_right n.whole List.mem_cons_self)
      exact absurd hpoint (by decide)
  rw [integer?_of_isFigure (isFigure_signed n.isFigure_letters negative), takeSign_letters,
    wholeDigits, hgrouped]
  rfl

/-- A decimal number is read as the double that is nearest to it. -/
lemma decimal?_letters (n : Numeral) {negative : Bool}
    (h : (n.scaled.toFloat negative).isInf = false) :
    decimal? (signed negative n.letters) = some (.float (n.scaled.toFloat negative)) := by
  have hmark : ∀ c ∈ n.letters, (!isExponentMark c) = true := by
    intro c hc
    rw [Bool.not_eq_true', isExponentMark, Bool.or_eq_false_iff, decide_eq_false_iff_not,
      decide_eq_false_iff_not]
    constructor
    · rintro rfl
      exact not_mem_of_forall n.isFigure_letters rfl hc
    · rintro rfl
      exact not_mem_of_forall n.isFigure_letters rfl hc
  have hpoint : ∀ c ∈ n.whole, decide (c ≠ '.') = true := forall_ne n.isWhole.isDigit rfl
  simp only [decimal?]
  rw [takeSign_letters]
  simp only [span_of_forall hmark]
  rw [letters, span_append_cons hpoint rfl]
  simp only [wholeDigits_of_isWhole n.isWhole,
    groupedDigits_of_isDigit n.fraction_ne_nil n.isDigit]
  exact if_neg (Bool.eq_false_iff.mp h)

/-- A decimal number is read as a double. -/
lemma scalar?_letters (n : Numeral) {negative : Bool}
    (h : (n.scaled.toFloat negative).isInf = false) :
    scalar? (signed negative n.letters) = some (.float (n.scaled.toFloat negative)) := by
  have hinf : n.letters ≠ ['i', 'n', 'f'] := fun heq =>
    not_mem_of_forall n.isFigure_letters (y := 'i') rfl (by simp [heq])
  have hnan : n.letters ≠ ['n', 'a', 'n'] := fun heq =>
    not_mem_of_forall n.isFigure_letters (y := 'n') rfl (by simp [heq])
  rw [scalar?_of_isFigure (isFigure_signed n.isFigure_letters negative)
    (n.isMoment_letters negative), n.integer?_letters negative, Option.none_or]
  simp only [float?]
  rw [takeSign_letters, if_neg hinf, if_neg hnan, n.decimal?_letters h]

/-! ### Doubles -/

/-- Digits followed by zeros and a point, as a decimal number. -/
def ofInteger (digits zeros : Nat) (h : 0 < digits ∨ zeros = 0) : Numeral where
  whole := Nat.toDigits 10 digits ++ List.replicate zeros '0'
  fraction := ['0']
  isWhole := isWhole_toDigits_append zeros h
  fraction_ne_nil := List.cons_ne_nil _ _
  isDigit := isDigit_zeros 1

/-- The digits of a number, with enough zeros in front for a number of places after the point. -/
def padded (digits places : Nat) : List Char :=
  List.replicate (places + 1 - (Nat.toDigits 10 digits).length) '0' ++ Nat.toDigits 10 digits

lemma places_lt_length_padded (digits places : Nat) : places < (padded digits places).length := by
  rw [padded, List.length_append, List.length_replicate]
  omega

lemma isDigit_padded (digits places : Nat) : ∀ c ∈ padded digits places, c.isDigit = true :=
  List.forall_mem_append.mpr ⟨isDigit_zeros _, isDigit_toDigits digits⟩

/-- Digits with a point between them, as a decimal number. -/
def ofPlaces (digits places : Nat) (hdigits : 0 < digits) (hplaces : 0 < places) : Numeral where
  whole := (padded digits places).take ((padded digits places).length - places)
  fraction := (padded digits places).drop ((padded digits places).length - places)
  isWhole := by
    have hlength := places_lt_length_padded digits places
    refine ⟨?_, fun c hc => isDigit_padded digits places c (List.mem_of_mem_take hc), ?_⟩
    · rw [Ne, List.take_eq_nil_iff]
      rintro (h | h)
      · omega
      · rw [h] at hlength
        exact Nat.not_lt_zero _ hlength
    · rw [List.head?_take, if_neg (by omega)]
      intro hhead
      rcases Nat.lt_or_ge places (Nat.toDigits 10 digits).length with hlt | hge
      · -- without zeros in front, the first digit is another one
        have hpadded : padded digits places = Nat.toDigits 10 digits := by
          rw [padded, Nat.sub_eq_zero_of_le hlt, List.replicate_zero, List.nil_append]
        rw [hpadded] at hhead
        exact absurd hhead (head?_toDigits hdigits)
      · rw [List.length_take, padded, List.length_append, List.length_replicate]
        omega
  fraction_ne_nil := by
    have hlength := places_lt_length_padded digits places
    rw [Ne, List.drop_eq_nil_iff]
    omega
  isDigit := fun c hc => isDigit_padded digits places c (List.mem_of_mem_drop hc)

lemma ofPlaces_scaled {digits places : Nat} (hdigits : 0 < digits) (hplaces : 0 < places) :
    (ofPlaces digits places hdigits hplaces).scaled = ⟨digits, -places⟩ := by
  have hlength := places_lt_length_padded digits places
  have hfraction : (ofPlaces digits places hdigits hplaces).fraction.length = places := by
    change ((padded digits places).drop _).length = places
    rw [List.length_drop]
    omega
  have hvalue : ofDigits 10 ((ofPlaces digits places hdigits hplaces).whole ++
      (ofPlaces digits places hdigits hplaces).fraction) = digits := by
    change ofDigits 10 ((padded digits places).take _ ++ (padded digits places).drop _) = digits
    rw [List.take_append_drop, padded, ofDigits_zeros_append]
  rw [scaled, hvalue, hfraction, Int.zero_sub]

lemma value_scaled_ofInteger {digits zeros : Nat} (h : 0 < digits ∨ zeros = 0) :
    (ofInteger digits zeros h).scaled.value = digits * 10 ^ zeros := by
  have hscaled : (ofInteger digits zeros h).scaled = ⟨10 ^ (zeros + 1) * digits, -1⟩ := by
    change Decimal.Scaled.mk (ofDigits 10
      (Nat.toDigits 10 digits ++ List.replicate zeros '0' ++ ['0'])) (0 - 1) = _
    rw [List.append_assoc, ← List.replicate_succ', ofDigits_append_zeros]
    rfl
  rw [hscaled, Decimal.Scaled.value, Nat.cast_mul, Nat.cast_pow, Nat.cast_ofNat, zpow_neg_one]
  ring

/-- The shortest decimals are written as decimal numbers with the same value. -/
lemma exists_positional {d : Decimal.Scaled} (h : 0 < d.digits) :
    ∃ n : Numeral, (Decimal.positional true d).toList = n.letters ∧ n.scaled.value = d.value := by
  rw [Decimal.positional]
  split
  · next hexponent =>
    obtain ⟨k, hk⟩ := Int.eq_ofNat_of_zero_le hexponent
    refine ⟨ofInteger d.digits k (.inl h), ?_, ?_⟩
    · have hzeros : (Decimal.zeros k).toList = List.replicate k '0' := String.toList_ofList
      rw [hk, Int.toNat_natCast, String.toList_append, String.toList_append, hzeros,
        Nat.toString_eq_ofList_toDigits, String.toList_ofList]
      rfl
    · rw [value_scaled_ofInteger, Decimal.Scaled.value, hk, zpow_natCast]
  · next hexponent =>
    obtain ⟨k, hk⟩ := Int.eq_ofNat_of_zero_le (show 0 ≤ -d.exponent by omega)
    refine ⟨ofPlaces d.digits k h (by omega), ?_, ?_⟩
    · rw [hk, Int.toNat_natCast, Decimal.setPoint, if_neg (by omega)]
      exact String.toList_ofList
    · rw [ofPlaces_scaled, ← hk, neg_neg]

/-- Finite doubles are written as decimal numbers that are nearest to them. -/
lemma exists_write {x : Float} (h : x.isFinite = true) :
    ∃ n : Numeral, (Decimal.Layout.filed.write x).toList =
        signed (Decimal.isNegative x) n.letters ∧
      n.scaled.toFloat (Decimal.isNegative x) = x := by
  obtain ⟨-, hnumber⟩ := Decimal.isInf_of_isFinite h
  have hfinite := Decimal.magnitudeBits_lt h
  -- it is enough to give back the magnitude
  have hread {n : Numeral} (hbits : n.scaled.nearestBits = Decimal.magnitudeBits x) :
      n.scaled.toFloat (Decimal.isNegative x) = x := by
    rw [Decimal.Scaled.toFloat, hbits, Decimal.ofSignAndBits_magnitudeBits]
  have hsign (text : String) :
      ((if Decimal.isNegative x then "-" else "") ++ text).toList =
        signed (Decimal.isNegative x) text.toList := by
    rw [String.toList_append]
    cases Decimal.isNegative x <;> rfl
  have hwrite : Decimal.Layout.filed.write x = (if Decimal.isNegative x then "-" else "") ++
      if Decimal.magnitudeBits x = 0 then "0.0"
      else Decimal.positional true (Decimal.shortest (Decimal.magnitudeBits x)) := by
    simp only [Decimal.Layout.write]
    rw [if_neg (Bool.eq_false_iff.mp hnumber), if_neg (Nat.ne_of_lt hfinite)]
    rfl
  rw [hwrite, hsign]
  split
  · next hzero =>
    refine ⟨ofInteger 0 0 (.inr rfl), rfl, hread ?_⟩
    rw [hzero]
    rfl
  · next hzero =>
    have hbits := Decimal.nearestBits_shortest (Nat.pos_of_ne_zero hzero) hfinite
    have hdigits : 0 < (Decimal.shortest (Decimal.magnitudeBits x)).digits := by
      refine Nat.pos_of_ne_zero fun hdigits => hzero ?_
      rw [← hbits, Decimal.Scaled.nearestBits, if_pos hdigits]
    obtain ⟨n, hletters, hvalue⟩ := exists_positional hdigits
    refine ⟨n, by rw [hletters], hread ?_⟩
    rw [Decimal.Scaled.nearestBits_congr hvalue, hbits]

end Numeral

/-- Finite doubles are written with figures. -/
lemma isFigure_write {x : Float} (h : x.isFinite = true) :
    ∀ c ∈ (Decimal.Layout.filed.write x).toList, isFigure c = true := by
  obtain ⟨n, hletters, -⟩ := Numeral.exists_write h
  rw [hletters]
  exact isFigure_signed n.isFigure_letters _

/-- Finite doubles are read back. -/
lemma scalar?_write {x : Float} (h : x.isFinite = true) :
    scalar? (Decimal.Layout.filed.write x).toList = some (.float x) := by
  obtain ⟨n, hletters, hread⟩ := Numeral.exists_write h
  have hinf : (n.scaled.toFloat (Decimal.isNegative x)).isInf = false := by
    rw [hread]
    exact (Decimal.isInf_of_isFinite h).1
  rw [hletters, n.scalar?_letters hinf, hread]

end Document

end TreeEvolution
