import TreeEvolution.Individual
import TreeEvolution.Proofs.Program.Meaning
import TreeEvolution.Symbol.Numeric

/-!
# Texts tell programs apart

What a text can tell of a symbol is its `Mark`: whether it is a leaf, a function or an operator,
what it is labelled with, and how many arguments it has.  If no label is empty or contains a
character that stands between labels, then the text of a program determines the marks of its
symbols, and is determined by them.

The text of a tree is read from left to right.  What comes before the first bracket is the label of
the root, unless the root is an operator; then the texts of the subtrees follow, each of them up to
a character that ends it.  Since the text of a tree may stand inside the one of a larger tree, it is
shown that the text can be read off the beginning of a longer text (`Determined`), by induction on
the tree.
-/

namespace TreeEvolution

/-! ### Marks -/

/-- The ways in which symbols are written. -/
inductive Symbol.Kind where
  /-- Without arguments. -/
  | leaf
  /-- In front of the arguments. -/
  | function
  /-- Between the arguments. -/
  | operator
  deriving DecidableEq

/-- What a text can tell of a symbol. -/
structure Mark where
  /-- How the symbol is written. -/
  kind : Symbol.Kind
  /-- What is written for the symbol. -/
  label : String
  /-- The number of its arguments. -/
  arity : Nat
  deriving DecidableEq

namespace Symbol

variable {V : Type}

/-- How a symbol is written. -/
def kind : Symbol V → Kind
  | constant _ _ | sensor _ _ | input _ _ | random _ _ _ => .leaf
  | function _ _ _ _ => .function
  | operator _ _ => .operator

/-- What is written for a symbol: its name, or the value of a random constant that has one. -/
def label [Printed V] : Symbol V → String
  | random name _ value => value.elim name Printed.text
  | s => s.name

/-- What a text can tell of a symbol. -/
def mark [Printed V] (s : Symbol V) : Mark :=
  ⟨s.kind, s.label, s.arity⟩

/-- The way in which a symbol is written goes with its number of arguments. -/
lemma arity_of_kind (s : Symbol V) :
    (s.kind = .leaf → s.arity = 0) ∧ (s.kind = .function → s.arity ≠ 0) ∧
      (s.kind = .operator → s.arity = 2) := by
  cases s with
  | function name arity rule arity_pos => exact ⟨nofun, fun _ => Nat.ne_of_gt arity_pos, nofun⟩
  | operator name rule => exact ⟨nofun, nofun, fun _ => rfl⟩
  | _ => exact ⟨fun _ => rfl, nofun, nofun⟩

end Symbol

/-! ### Letters of a text -/

namespace Mark

/-- The letters before the first bracket. -/
def opening (m : Mark) : List Char :=
  match m.kind with
  | .leaf | .function => m.label.toList
  | .operator => []

/-- The letters between two arguments. -/
def separator (m : Mark) : List Char :=
  match m.kind with
  | .leaf | .function => [',', ' ']
  | .operator => ' ' :: m.label.toList ++ [' ']

/-- The letters from the first bracket on, around those of the arguments. -/
def closing (m : Mark) (arguments : List (List Char)) : List Char :=
  match m.kind with
  | .leaf => []
  | .function | .operator => '(' :: m.separator.intercalate arguments ++ [')']

variable {m other : Mark}

/-- Two labels that are written before the first bracket are the same if the letters are. -/
lemma label_eq_of_opening (hm : m.kind ≠ .operator) (hkind : m.kind = other.kind)
    (h : m.opening = other.opening) : m.label = other.label := by
  rw [opening, opening, ← hkind] at h
  cases hk : m.kind with
  | leaf =>
    rw [hk] at h
    exact String.toList_inj.mp h
  | function =>
    rw [hk] at h
    exact String.toList_inj.mp h
  | operator => exact absurd hk hm

/-- A leaf has no arguments to be written. -/
lemma closing_of_leaf (h : m.kind = .leaf) (arguments : List (List Char)) :
    m.closing arguments = [] := by
  rw [closing, h]

/-- The arguments of a function stand between brackets, with commas between them. -/
lemma closing_of_function (h : m.kind = .function) (arguments : List (List Char))
    (rest : List Char) :
    m.closing arguments ++ rest = '(' :: ([',', ' '].intercalate arguments ++ ')' :: rest) := by
  rw [closing, separator, h]
  simp

/-- The arguments of an operator stand between brackets, with its label between them. -/
lemma closing_of_operator (h : m.kind = .operator) (a b rest : List Char) :
    m.closing [a, b] ++ rest =
      '(' :: (a ++ ' ' :: (m.label.toList ++ ' ' :: (b ++ ')' :: rest))) := by
  rw [closing, separator, h]
  simp

end Mark

/-- A symbol is written with these letters. -/
lemma Symbol.exists_write_eq_ok {V : Type} [Printed V] {s : Symbol V} {arguments : List String}
    (h : arguments.length = s.arity) :
    ∃ text, s.write arguments = .ok text ∧
      text.toList = s.mark.opening ++ s.mark.closing (arguments.map String.toList) := by
  cases s with
  | constant name value =>
    obtain rfl : arguments = [] := List.eq_nil_of_length_eq_zero h
    exact ⟨name, rfl, (List.append_nil _).symm⟩
  | sensor name reading =>
    obtain rfl : arguments = [] := List.eq_nil_of_length_eq_zero h
    exact ⟨name, rfl, (List.append_nil _).symm⟩
  | input name index =>
    obtain rfl : arguments = [] := List.eq_nil_of_length_eq_zero h
    exact ⟨name, rfl, (List.append_nil _).symm⟩
  | random name recipe value => exact ⟨_, rfl, (List.append_nil _).symm⟩
  | function name arity rule arity_pos =>
    have harguments : ¬ arguments.isEmpty = true := by
      rw [List.isEmpty_iff_length_eq_zero, h]
      exact Nat.ne_of_gt arity_pos
    refine ⟨_, rfl, ?_⟩
    rw [call, if_neg harguments]
    simp [mark, Mark.opening, Mark.closing, Mark.separator, kind, label, String.toList_append,
      String.toList_intercalate]
  | operator name rule =>
    obtain ⟨a, b, rfl⟩ := List.length_eq_two.mp h
    refine ⟨_, rfl, ?_⟩
    simp [mark, Mark.opening, Mark.closing, Mark.separator, kind, label, Symbol.name,
      String.toList_append]

namespace Tree

variable {V : Type} [Printed V]

mutual

/-- The letters of the text of a tree. -/
def letters : Tree V → List Char
  | .node s children => s.mark.opening ++ s.mark.closing (lettersEach children)

/-- The letters of the texts of several trees. -/
def lettersEach : List (Tree V) → List (List Char)
  | [] => []
  | t :: rest => t.letters :: lettersEach rest

end

lemma letters_node (s : Symbol V) (children : List (Tree V)) :
    (node s children).letters = s.mark.opening ++ s.mark.closing (lettersEach children) := by
  rw [letters]

lemma lettersEach_eq_map (trees : List (Tree V)) : lettersEach trees = trees.map letters := by
  induction trees with
  | nil => rw [lettersEach, List.map_nil]
  | cons t trees ih => rw [lettersEach, ih, List.map_cons]

/-- A sound tree has a text of these letters. -/
lemma Sound.exists_text {t : Tree V} (h : t.Sound) :
    ∃ text, t.along Symbol.write [] = .ok text ∧ text.toList = t.letters := by
  induction t with
  | node s children ih =>
    cases h with
    | node harity heach =>
      have hchildren : ∃ texts, alongEach Symbol.write [] children = .ok texts ∧
          texts.map String.toList = lettersEach children := by
        clear harity
        induction children with
        | nil => exact ⟨[], alongEach_nil, by rw [lettersEach_eq_map, List.map_nil, List.map_nil]⟩
        | cons t children ihc =>
          obtain ⟨ht, hrest⟩ := List.forall_mem_cons.mp heach
          obtain ⟨text, htext, hletters⟩ := ih t List.mem_cons_self ht
          obtain ⟨texts, htexts, hmap⟩ :=
            ihc (fun u hu => ih u (List.mem_cons_of_mem t hu)) hrest
          refine ⟨text :: texts, ?_, ?_⟩
          · rw [alongEach_cons, htext, htexts]
            rfl
          · rw [List.map_cons, hmap, hletters, lettersEach]
      obtain ⟨texts, htexts, hmap⟩ := hchildren
      have hlength : texts.length = s.arity := by
        rw [harity, ← List.length_map String.toList, hmap, lettersEach_eq_map, List.length_map]
      obtain ⟨text, htext, hletters⟩ := Symbol.exists_write_eq_ok hlength
      refine ⟨text, ?_, ?_⟩
      · have hbase : (if children.isEmpty then [] else texts) = texts := by
          split
          · rename_i hempty
            rw [List.isEmpty_iff_length_eq_zero, ← harity, ← hlength] at hempty
            exact (List.eq_nil_of_length_eq_zero hempty).symm
          · rfl
        rw [along_node, htexts]
        change s.write (if children.isEmpty then [] else texts) = .ok text
        rw [hbase, htext]
      · rw [letters_node, hletters, hmap]

end Tree

/-! ### Plain labels -/

/-- Whether a character can only stand in a label. -/
def isPlain (c : Char) : Bool :=
  c ≠ '(' && c ≠ ')' && c ≠ ',' && c ≠ ' '

/-- A label that is not empty and has no character that stands between labels. -/
structure Plain (label : String) : Prop where
  /-- It is not empty. -/
  ne_empty : label ≠ ""
  /-- It has no other characters. -/
  each : ∀ c ∈ label.toList, isPlain c = true

instance (label : String) : Decidable (Plain label) :=
  decidable_of_iff (label ≠ "" ∧ label.toList.all isPlain = true)
    ⟨fun h => ⟨h.1, List.all_eq_true.mp h.2⟩, fun h => ⟨h.ne_empty, List.all_eq_true.mpr h.each⟩⟩

/-- What comes next cannot belong to a label. -/
def Interrupts (rest : List Char) : Prop :=
  ∀ c ∈ rest.head?, isPlain c = false

/-- What comes after the text of a tree: nothing, or a character that ends it. -/
def Ends (rest : List Char) : Prop :=
  ∀ c ∈ rest.head?, c = ',' ∨ c = ')' ∨ c = ' '

lemma ends_cons {c : Char} (hc : c = ',' ∨ c = ')' ∨ c = ' ') (letters : List Char) :
    Ends (c :: letters) := by
  intro d hd
  cases hd
  exact hc

/-- What ends a text interrupts a label. -/
lemma Ends.interrupts {rest : List Char} (h : Ends rest) : Interrupts rest := by
  intro c hc
  rcases h c hc with rfl | rfl | rfl <;> rfl

/-- A label can be read off the beginning of a text, up to where it is interrupted. -/
lemma eq_and_eq_of_interrupts {label other rest more : List Char}
    (hlabel : ∀ c ∈ label, isPlain c = true) (hother : ∀ c ∈ other, isPlain c = true)
    (hrest : Interrupts rest) (hmore : Interrupts more) (h : label ++ rest = other ++ more) :
    label = other ∧ rest = more := by
  have hnone : ∀ {l : List Char}, Interrupts l → l.takeWhile isPlain = [] := by
    intro l hl
    cases l with
    | nil => rfl
    | cons c l => rw [List.takeWhile_cons_of_neg (by rw [hl c rfl]; exact Bool.false_ne_true)]
  have hheads : label = other := by
    have htake := congrArg (List.takeWhile isPlain) h
    rwa [List.takeWhile_append_of_pos hlabel, List.takeWhile_append_of_pos hother, hnone hrest,
      hnone hmore, List.append_nil, List.append_nil] at htake
  rw [hheads] at h
  exact ⟨hheads, List.append_cancel_left h⟩

namespace Mark

variable {m other : Mark}

/-- The letters before the first bracket are plain. -/
lemma isPlain_of_mem_opening (h : Plain m.label) : ∀ c ∈ m.opening, isPlain c = true := by
  rw [opening]
  cases m.kind with
  | leaf => exact h.each
  | function => exact h.each
  | operator =>
    intro c hc
    cases hc

/-- Only an operator begins with a bracket. -/
lemma opening_eq_nil_iff (h : Plain m.label) : m.opening = [] ↔ m.kind = .operator := by
  have hlabel : m.label.toList ≠ [] := by
    intro hempty
    exact h.ne_empty (String.toList_inj.mp hempty)
  rw [opening]
  cases m.kind with
  | leaf => simp [hlabel]
  | function => simp [hlabel]
  | operator => simp

/-- What comes after the letters before the first bracket interrupts them. -/
lemma interrupts_closing (arguments : List (List Char)) {rest : List Char} (h : Ends rest) :
    Interrupts (m.closing arguments ++ rest) := by
  rw [closing]
  cases m.kind with
  | leaf => exact h.interrupts
  | function =>
    intro c hc
    cases hc
    rfl
  | operator =>
    intro c hc
    cases hc
    rfl

/-- After a leaf there is no bracket, so a text shows which way its root is written. -/
lemma kind_eq (hm : Plain m.label) (hother : Plain other.label)
    (hopening : m.opening = other.opening) {arguments others : List (List Char)}
    {rest more : List Char} (hrest : Ends rest) (hmore : Ends more)
    (hclosing : m.closing arguments ++ rest = other.closing others ++ more) :
    m.kind = other.kind := by
  have hends : ∀ letters : List Char, ¬ Ends ('(' :: letters) := by
    intro letters hends
    have hbracket := hends '(' rfl
    simp at hbracket
  have hoperator : m.kind = .operator ↔ other.kind = .operator := by
    rw [← opening_eq_nil_iff hm, ← opening_eq_nil_iff hother, hopening]
  rw [closing, closing] at hclosing
  cases hk : m.kind with
  | leaf =>
    cases hk' : other.kind with
    | leaf => rfl
    | function =>
      rw [hk, hk'] at hclosing
      dsimp only at hclosing
      rw [List.nil_append] at hclosing
      rw [hclosing] at hrest
      exact absurd hrest (hends _)
    | operator =>
      rw [hk, hk'] at hoperator
      exact absurd (hoperator.mpr rfl) (by decide)
  | function =>
    cases hk' : other.kind with
    | leaf =>
      rw [hk, hk'] at hclosing
      dsimp only at hclosing
      rw [List.nil_append] at hclosing
      rw [← hclosing] at hmore
      exact absurd hmore (hends _)
    | function => rfl
    | operator =>
      rw [hk, hk'] at hoperator
      exact absurd (hoperator.mpr rfl) (by decide)
  | operator =>
    rw [hk] at hoperator
    exact (hoperator.mp rfl).symm

end Mark

/-! ### Trees are read off the beginning of a text -/

namespace Tree

variable {V : Type} [Printed V]

/-- The marks of the symbols of several trees. -/
def marks (trees : List (Tree V)) : List Mark :=
  (listings trees).map Symbol.mark

/-- Every symbol of a tree has a plain label. -/
def Legible (t : Tree V) : Prop :=
  ∀ s ∈ t.listing, Plain s.label

/-- The marks of a tree, and where its text ends, can be read off any text that begins with it. -/
def Determined (t : Tree V) : Prop :=
  ∀ u : Tree V, u.Sound → u.Legible → ∀ rest more, Ends rest → Ends more →
    t.letters ++ rest = u.letters ++ more → marks [t] = marks [u] ∧ rest = more

lemma marks_cons (t : Tree V) (trees : List (Tree V)) :
    marks (t :: trees) = marks [t] ++ marks trees := by
  rw [marks, marks, marks, listings_cons, listings_cons, listings_nil, List.append_nil,
    List.map_append]

lemma marks_node (s : Symbol V) (children : List (Tree V)) :
    marks [node s children] = s.mark :: marks children := by
  rw [marks, marks, listings_cons, listings_nil, List.append_nil, listing_node, List.map_cons]

/-- The subtrees of a legible tree are legible. -/
lemma Legible.of_mem {s : Symbol V} {children : List (Tree V)} (h : (node s children).Legible) :
    Plain s.label ∧ ∀ t ∈ children, t.Legible := by
  rw [Legible, listing_node] at h
  refine ⟨h s List.mem_cons_self, fun t ht c hc => h c ?_⟩
  exact List.mem_cons_of_mem s (mem_listings.mpr ⟨t, ht, hc⟩)

/-- The letters of a single argument. -/
lemma arguments_singleton (t : Tree V) : [',', ' '].intercalate (lettersEach [t]) = t.letters := by
  rw [lettersEach_eq_map, List.map_singleton, List.intercalate_singleton]

/-- The letters of several arguments are those of the first and, after a comma, those of the
others. -/
lemma arguments_cons (t u : Tree V) (trees : List (Tree V)) :
    [',', ' '].intercalate (lettersEach (t :: u :: trees)) =
      t.letters ++ ',' :: ' ' :: [',', ' '].intercalate (lettersEach (u :: trees)) := by
  rw [lettersEach, lettersEach, List.intercalate_cons_cons, List.append_assoc]
  rfl

/-- Arguments that are separated by commas can be read off a text that begins with them and a
bracket. -/
lemma marks_eq_of_arguments {trees others : List (Tree V)} (htrees : ∀ t ∈ trees, t.Determined)
    (hsound : ∀ u ∈ others, u.Sound) (hlegible : ∀ u ∈ others, u.Legible) (hne : trees ≠ [])
    (hne' : others ≠ []) {rest more : List Char}
    (h : [',', ' '].intercalate (lettersEach trees) ++ ')' :: rest =
      [',', ' '].intercalate (lettersEach others) ++ ')' :: more) :
    marks trees = marks others ∧ trees.length = others.length ∧ rest = more := by
  have hbracket : ∀ letters, Ends (')' :: letters) := ends_cons (by decide)
  have hcomma : ∀ letters, Ends (',' :: letters) := ends_cons (by decide)
  induction trees generalizing others with
  | nil => exact absurd rfl hne
  | cons t trees ih =>
    obtain _ | ⟨u, others⟩ := others
    · exact absurd rfl hne'
    obtain ⟨ht, htrees⟩ := List.forall_mem_cons.mp htrees
    obtain ⟨hu, hsound⟩ := List.forall_mem_cons.mp hsound
    obtain ⟨hu', hlegible⟩ := List.forall_mem_cons.mp hlegible
    -- The first arguments are the same, and either both are the last ones or a comma follows.
    obtain _ | ⟨t', trees⟩ := trees
    · obtain _ | ⟨u', others⟩ := others
      · rw [arguments_singleton, arguments_singleton] at h
        obtain ⟨hmarks, hrest⟩ := ht u hu hu' _ _ (hbracket rest) (hbracket more) h
        exact ⟨hmarks, rfl, (List.cons.inj hrest).2⟩
      · rw [arguments_singleton, arguments_cons, List.append_assoc] at h
        obtain ⟨-, hrest⟩ := ht u hu hu' _ _ (hbracket rest) (hcomma _) h
        cases hrest
    · obtain _ | ⟨u', others⟩ := others
      · rw [arguments_singleton, arguments_cons, List.append_assoc] at h
        obtain ⟨-, hrest⟩ := ht u hu hu' _ _ (hcomma _) (hbracket more) h
        cases hrest
      · rw [arguments_cons, arguments_cons, List.append_assoc, List.append_assoc] at h
        obtain ⟨hmarks, hrest⟩ := ht u hu hu' _ _ (hcomma _) (hcomma _) h
        have hothers := (List.cons.inj (List.cons.inj hrest).2).2
        obtain ⟨hmarks', hlength, hrest⟩ := ih htrees hsound hlegible (List.cons_ne_nil _ _)
          (List.cons_ne_nil _ _) hothers
        refine ⟨?_, congrArg Nat.succ hlength, hrest⟩
        rw [marks_cons t, marks_cons u, hmarks, hmarks']

/-- The arguments of an operator and its label can be read off a text that begins with them and a
bracket. -/
lemma marks_eq_of_operands {a b a' b' : Tree V} (ha : a.Determined) (hb : b.Determined)
    (hsound : a'.Sound ∧ b'.Sound) (hlegible : a'.Legible ∧ b'.Legible) {label label' : String}
    (hlabel : Plain label) (hlabel' : Plain label') {rest more : List Char}
    (h : a.letters ++ ' ' :: (label.toList ++ ' ' :: (b.letters ++ ')' :: rest)) =
      a'.letters ++ ' ' :: (label'.toList ++ ' ' :: (b'.letters ++ ')' :: more))) :
    label = label' ∧ marks [a, b] = marks [a', b'] ∧ rest = more := by
  have hbracket : ∀ letters, Ends (')' :: letters) := ends_cons (by decide)
  have hblank : ∀ letters, Ends (' ' :: letters) := ends_cons (by decide)
  obtain ⟨hmarks, hmiddle⟩ := ha a' hsound.1 hlegible.1 _ _ (hblank _) (hblank _) h
  have hmiddle := (List.cons.inj hmiddle).2
  obtain ⟨heq, hlast⟩ := eq_and_eq_of_interrupts hlabel.each hlabel'.each (hblank _).interrupts
    (hblank _).interrupts hmiddle
  have hlast := (List.cons.inj hlast).2
  obtain ⟨hmarks', hrest⟩ := hb b' hsound.2 hlegible.2 _ _ (hbracket _) (hbracket _) hlast
  refine ⟨String.toList_inj.mp heq, ?_, (List.cons.inj hrest).2⟩
  rw [marks_cons a, marks_cons a', hmarks, hmarks']

/-- Two roots that are written the same way have the same label and the same arguments if what is
written for them is the same. -/
lemma root_eq {s s' : Symbol V} {children children' : List (Tree V)}
    (hlength : s.arity = children.length) (hlength' : s'.arity = children'.length)
    (hchildren : ∀ t ∈ children, t.Determined) (hsound : ∀ u ∈ children', u.Sound)
    (hlegible : ∀ u ∈ children', u.Legible) (hs : Plain s.label) (hs' : Plain s'.label)
    (hkind : s.mark.kind = s'.mark.kind) (hopening : s.mark.opening = s'.mark.opening)
    {rest more : List Char}
    (h : s.mark.closing (lettersEach children) ++ rest =
      s'.mark.closing (lettersEach children') ++ more) :
    s.label = s'.label ∧ children.length = children'.length ∧
      marks children = marks children' ∧ rest = more := by
  obtain ⟨hleaf, hfunction, hoperator⟩ := s.arity_of_kind
  obtain ⟨hleaf', hfunction', hoperator'⟩ := s'.arity_of_kind
  cases hk : s.mark.kind with
  | leaf =>
    have hk' : s'.mark.kind = .leaf := hkind.symm.trans hk
    have hlabel := Mark.label_eq_of_opening (by rw [hk]; decide) hkind hopening
    obtain rfl : children = [] := List.eq_nil_of_length_eq_zero (hlength.symm.trans (hleaf hk))
    obtain rfl : children' = [] :=
      List.eq_nil_of_length_eq_zero (hlength'.symm.trans (hleaf' hk'))
    rw [Mark.closing_of_leaf hk, Mark.closing_of_leaf hk'] at h
    exact ⟨hlabel, rfl, rfl, h⟩
  | function =>
    have hk' : s'.mark.kind = .function := hkind.symm.trans hk
    have hlabel := Mark.label_eq_of_opening (by rw [hk]; decide) hkind hopening
    have hne : children ≠ [] := by
      rintro rfl
      exact hfunction hk hlength
    have hne' : children' ≠ [] := by
      rintro rfl
      exact hfunction' hk' hlength'
    rw [Mark.closing_of_function hk, Mark.closing_of_function hk', List.cons.injEq] at h
    obtain ⟨hmarks, hlengths, hrest⟩ :=
      marks_eq_of_arguments hchildren hsound hlegible hne hne' h.2
    exact ⟨hlabel, hlengths, hmarks, hrest⟩
  | operator =>
    have hk' : s'.mark.kind = .operator := hkind.symm.trans hk
    obtain ⟨a, b, rfl⟩ := List.length_eq_two.mp (hlength.symm.trans (hoperator hk))
    obtain ⟨a', b', rfl⟩ := List.length_eq_two.mp (hlength'.symm.trans (hoperator' hk'))
    simp only [List.forall_mem_cons] at hchildren hsound hlegible
    simp only [lettersEach, Mark.closing_of_operator hk, Mark.closing_of_operator hk',
      List.cons.injEq, true_and] at h
    obtain ⟨hlabel, hmarks, hrest⟩ := marks_eq_of_operands hchildren.1 hchildren.2.1
      ⟨hsound.1, hsound.2.1⟩ ⟨hlegible.1, hlegible.2.1⟩ hs hs' h
    exact ⟨hlabel, rfl, hmarks, hrest⟩

/-- The marks of a sound and legible tree can be read off the beginning of a text. -/
lemma determined {t : Tree V} (hsound : t.Sound) (hlegible : t.Legible) : t.Determined := by
  induction t with
  | node s children ih =>
    rintro ⟨s', children'⟩ hsound' hlegible' rest more hrest hmore h
    obtain ⟨hs, hchildren⟩ := hlegible.of_mem
    obtain ⟨hs', hchildren'⟩ := hlegible'.of_mem
    cases hsound with
    | node harity heach =>
    cases hsound' with
    | node harity' heach' =>
    have hdetermined : ∀ t ∈ children, t.Determined :=
      fun t ht => ih t ht (heach t ht) (hchildren t ht)
    have hplain : Plain s.mark.label := hs
    have hplain' : Plain s'.mark.label := hs'
    rw [letters_node, letters_node, List.append_assoc, List.append_assoc] at h
    obtain ⟨hopening, hclosing⟩ := eq_and_eq_of_interrupts
      (Mark.isPlain_of_mem_opening hplain) (Mark.isPlain_of_mem_opening hplain')
      (Mark.interrupts_closing _ hrest) (Mark.interrupts_closing _ hmore) h
    -- The letters before the first bracket, and whether there is one, show how the root is written.
    have hkind : s.kind = s'.kind :=
      Mark.kind_eq hplain hplain' hopening hrest hmore hclosing
    obtain ⟨hlabel, hlength, hmarks, hrest⟩ := root_eq harity harity' hdetermined heach'
      hchildren' hs hs' hkind hopening hclosing
    have harities : s.arity = s'.arity := by rw [harity, harity', hlength]
    have hmark : s.mark = s'.mark := by
      rw [Symbol.mark, Symbol.mark, hkind, hlabel, harities]
    rw [marks_node, marks_node, hmark, hmarks]
    exact ⟨rfl, hrest⟩

/-- Sound trees with the same marks have the same letters. -/
lemma lettersEach_eq_of_marks {marked : List Mark} {trees others : List (Tree V)}
    (htrees : ∀ t ∈ trees, t.Sound) (hothers : ∀ u ∈ others, u.Sound)
    (hlength : trees.length = others.length) (h : marks trees = marked)
    (h' : marks others = marked) : lettersEach trees = lettersEach others := by
  -- The first mark is that of the first root, whose subtrees then join the trees that are left.
  induction marked generalizing trees others with
  | nil =>
    cases trees with
    | nil =>
      obtain rfl : others = [] := List.eq_nil_of_length_eq_zero hlength.symm
      rfl
    | cons t trees =>
      rw [marks, List.map_eq_nil_iff, listings_cons] at h
      exact absurd (List.append_eq_nil_iff.mp h).1 t.listing_ne_nil
  | cons mark marked ih =>
    obtain _ | ⟨⟨s, children⟩, trees⟩ := trees
    · cases h
    obtain _ | ⟨⟨s', children'⟩, others⟩ := others
    · cases hlength
    have happend : ∀ (r : Symbol V) (below after : List (Tree V)),
        marks (node r below :: after) = r.mark :: marks (below ++ after) := by
      intro r below after
      rw [marks_cons, marks_node, marks, marks, marks, listings_append, List.map_append,
        List.cons_append]
    rw [happend, List.cons.injEq] at h h'
    obtain ⟨hmark, h⟩ := h
    obtain ⟨hmark', h'⟩ := h'
    obtain ⟨hroot, htrees⟩ := List.forall_mem_cons.mp htrees
    obtain ⟨hroot', hothers⟩ := List.forall_mem_cons.mp hothers
    cases hroot with
    | node harity heach =>
    cases hroot' with
    | node harity' heach' =>
    have hmarks : s.mark = s'.mark := hmark.trans hmark'.symm
    have harities : s.arity = s'.arity := congrArg Mark.arity hmarks
    have hchildren : children.length = children'.length := by
      rw [← harity, ← harity', harities]
    have hrest : lettersEach (children ++ trees) = lettersEach (children' ++ others) := by
      refine ih (List.forall_mem_append.mpr ⟨heach, htrees⟩)
        (List.forall_mem_append.mpr ⟨heach', hothers⟩) ?_ h h'
      rw [List.length_append, List.length_append, hchildren, Nat.succ.inj hlength]
    simp only [lettersEach_eq_map, List.map_append] at hrest
    obtain ⟨hbelow, hafter⟩ := List.append_inj hrest (by
      rw [List.length_map, List.length_map, hchildren])
    rw [lettersEach_eq_map, lettersEach_eq_map, List.map_cons, List.map_cons, hafter, letters_node,
      letters_node, lettersEach_eq_map, lettersEach_eq_map, hbelow, hmarks]

/-- Sound and legible trees have the same letters exactly if they have the same marks. -/
lemma letters_eq_iff {t u : Tree V} (hsound : t.Sound) (hsound' : u.Sound) (hlegible : t.Legible)
    (hlegible' : u.Legible) : t.letters = u.letters ↔ marks [t] = marks [u] := by
  constructor
  · intro h
    have hnone : Ends [] := fun c hc => by cases hc
    have hread := determined hsound hlegible u hsound' hlegible' [] [] hnone hnone
    rw [List.append_nil, List.append_nil] at hread
    exact (hread h).1
  · intro h
    have heach := lettersEach_eq_of_marks (List.forall_mem_singleton.mpr hsound)
      (List.forall_mem_singleton.mpr hsound') rfl h rfl
    rw [lettersEach_eq_map, lettersEach_eq_map] at heach
    exact (List.cons.inj heach).1

end Tree

/-! ### Texts of programs -/

namespace Program

open Places

variable {V : Type} [Printed V]

/-- The text of a well-formed program has the letters of its tree. -/
lemma exists_tree_text {p : Program V} (h : p.isWellFormed = .ok true) :
    ∃ t : Tree V, t.Sound ∧ t.listing = p.symbols ∧
      ∃ text, p.text = .ok text ∧ text.toList = t.letters := by
  obtain ⟨t, hsound, hlisting⟩ := Tree.fills_one_iff.mp (fills_of_listsTrees h)
  obtain ⟨text, htext, hletters⟩ := hsound.exists_text
  obtain rfl : p = ⟨t.listing⟩ := by rw [hlisting]
  refine ⟨t, hsound, rfl, text, ?_, hletters⟩
  have hempty : ¬ (⟨t.listing⟩ : Program V).isEmpty = true := by
    rw [isEmpty, List.isEmpty_iff]
    exact t.listing_ne_nil
  rw [Program.text, if_neg hempty, along_listing hsound, htext]
  rfl

/-- A tree lists the marks of the program that it is. -/
lemma marks_eq_map {p : Program V} {t : Tree V} (h : t.listing = p.symbols) :
    Tree.marks [t] = p.symbols.map Symbol.mark := by
  rw [Tree.marks, Tree.listings_cons, Tree.listings_nil, List.append_nil, h]

/-- Programs with the same marks are the same if different symbols have different marks. -/
lemma eq_of_marks {p q : Program V}
    (hdistinct : ∀ s ∈ p.symbols, ∀ s' ∈ q.symbols, s.mark = s'.mark → s = s')
    (h : p.symbols.map Symbol.mark = q.symbols.map Symbol.mark) : p = q := by
  have hlength : p.symbols.length = q.symbols.length := by
    simpa using congrArg List.length h
  have hsymbols : p.symbols = q.symbols := by
    refine List.ext_getElem hlength fun k hk hk' => ?_
    have hmark : p.symbols[k].mark = q.symbols[k].mark := by
      simpa [hk, hk'] using congrArg (fun marks => marks[k]?) h
    exact hdistinct _ (List.getElem_mem hk) _ (List.getElem_mem hk') hmark
  exact congrArg Program.mk hsymbols

/-- **Texts tell programs apart.**  Take two well-formed programs whose labels are plain.  Both have
a text, and the texts are the same exactly if the symbols agree one by one in the way they are
written, in their labels and in their numbers of arguments.  So two individuals have the same code
exactly if their programs agree in this way, and if no two different symbols do, exactly if they
have the same program. -/
theorem texts_tell_programs_apart {p q : Program V} (hp : p.isWellFormed = .ok true)
    (hq : q.isWellFormed = .ok true) (hplain : ∀ s ∈ p.symbols, Plain s.label)
    (hplain' : ∀ s ∈ q.symbols, Plain s.label) :
    (∃ text text', p.text = .ok text ∧ q.text = .ok text' ∧
      (text = text' ↔ p.symbols.map Symbol.mark = q.symbols.map Symbol.mark)) ∧
    ∀ score score' : Score, ∃ same : Bool,
      Individual.sameCode ⟨p, score⟩ ⟨q, score'⟩ = .ok same ∧
      (same = true ↔ p.symbols.map Symbol.mark = q.symbols.map Symbol.mark) ∧
      ((∀ s ∈ p.symbols, ∀ s' ∈ q.symbols, s.mark = s'.mark → s = s') →
        (same = true ↔ p = q)) := by
  obtain ⟨t, hsound, hlisting, text, htext, hletters⟩ := exists_tree_text hp
  obtain ⟨u, hsound', hlisting', text', htext', hletters'⟩ := exists_tree_text hq
  have hlegible : t.Legible := by
    rw [Tree.Legible, hlisting]
    exact hplain
  have hlegible' : u.Legible := by
    rw [Tree.Legible, hlisting']
    exact hplain'
  have hiff : text = text' ↔ p.symbols.map Symbol.mark = q.symbols.map Symbol.mark := by
    rw [← marks_eq_map hlisting, ← marks_eq_map hlisting', ← String.toList_inj, hletters, hletters']
    exact Tree.letters_eq_iff hsound hsound' hlegible hlegible'
  refine ⟨⟨text, text', htext, htext', hiff⟩, fun score score' => ⟨text == text', ?_, ?_, ?_⟩⟩
  · rw [Individual.sameCode, htext, htext']
    rfl
  · rw [beq_iff_eq, hiff]
  · intro hdistinct
    rw [beq_iff_eq, hiff]
    constructor
    · exact eq_of_marks hdistinct
    · rintro rfl
      rfl

/-- The input `x`, its negative and the input `y`, after another symbol. -/
def operands (s : Symbol Float) : Program Float :=
  ⟨[s, Numeric.negation, .input "x" 0, .input "y" 1]⟩

/-- A minus that is written in front of two arguments, next to one that has a single argument, is
not taken for a minus between them. -/
theorem minus_in_front_is_not_minus_between :
    Individual.sameCode ⟨operands (.function "-" 2 (fun _ => .ok 0) Nat.two_pos), Score.pending⟩
      ⟨operands Numeric.subtraction, Score.pending⟩ = .ok false := by
  have hplain : ∀ s ∈ (operands (.function "-" 2 (fun _ => .ok 0) Nat.two_pos)).symbols,
      Plain s.label := by
    decide +kernel
  have hplain' : ∀ s ∈ (operands Numeric.subtraction).symbols, Plain s.label := by decide +kernel
  obtain ⟨same, hsame, hmarks, -⟩ :=
    (texts_tell_programs_apart rfl rfl hplain hplain').2 Score.pending Score.pending
  have hdifferent : ¬ same = true := by
    rw [hmarks]
    decide +kernel
  rw [hsame, Bool.eq_false_iff.mpr hdifferent]

end Program

end TreeEvolution
