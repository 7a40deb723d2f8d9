import TreeEvolution.Document.Reading
import TreeEvolution.Proofs.Document.Numerals
import TreeEvolution.Proofs.Document.Tables
import TreeEvolution.Proofs.Outcomes
import TreeEvolution.Settings.Decoding

/-!
# Settings files read back

A settings file is a header and a line for each datum.  The data that is written into such a line is
read from it again (`Reads`): integers, finite numbers, truth values, and texts without anything to
escape.  So are the keys, and hence the document that is read has the data under the keys in the
order of the lines (`read_file`).
-/

namespace TreeEvolution.Document

/-! ### Words -/

/-- Figures may stand in words. -/
lemma isWordChar_of_isFigure {c : Char} (h : isFigure c = true) : isWordChar c = true := by
  simp only [isFigure, Bool.or_eq_true, decide_eq_true_eq] at h
  rcases h with (h | rfl) | rfl
  · simp [isWordChar, Char.isAlphanum, h]
  · rfl
  · rfl

/-- The characters of keys may stand in words. -/
lemma isWordChar_of_isKeyChar {c : Char} (h : isKeyChar c = true) : isWordChar c = true := by
  rw [show isWordChar c = (isKeyChar c || c = '+' || c = '.' || c = ':') from rfl, h]
  rfl

/-- The characters of words are others than those that have a meaning. -/
lemma ne_of_isWordChar {c d : Char} (hc : isWordChar c = true) (hd : isWordChar d = false) :
    c ≠ d := by
  rintro rfl
  rw [hc] at hd
  cases hd

/-- A word is no blank. -/
lemma skipBlanks_of_isWordChar {c : Char} (hc : isWordChar c = true) (rest : List Char) :
    skipBlanks (c :: rest) = c :: rest := by
  refine List.dropWhile_cons_of_neg ?_
  simp [ne_of_isWordChar hc (d := ' ') rfl, ne_of_isWordChar hc (d := '\t') rfl]

/-- A word is no empty line. -/
lemma skipLines_of_isWordChar {c : Char} (hc : isWordChar c = true) (rest : List Char) :
    skipLines false (c :: rest) = some (c :: rest) := by
  rw [skipLines.eq_6 c rest (ne_of_isWordChar hc rfl)
    (fun _ h => absurd h (ne_of_isWordChar hc rfl)) (ne_of_isWordChar hc rfl)]
  simp [ne_of_isWordChar hc (d := ' ') rfl, ne_of_isWordChar hc (d := '\t') rfl]

/-- The end of a line. -/
lemma endLine_newline (rest : List Char) : endLine ('\n' :: rest) = some rest :=
  rfl

/-! ### Values -/

/-- A text is read as a datum where it stands at the end of a line. -/
structure Reads (text : List Char) (d : Datum) : Prop where
  /-- The text does not begin with a blank. -/
  skipBlanks : ∀ rest, skipBlanks (text ++ '\n' :: rest) = text ++ '\n' :: rest
  /-- The value of the text is the datum. -/
  readValue : ∀ steps depth rest,
    readValue (steps + 1) depth (text ++ '\n' :: rest) = some (d, '\n' :: rest)

/-- A word is read as what it stands for. -/
lemma readScalar_of_isWordChar {word : List Char} {d : Datum}
    (hword : ∀ c ∈ word, isWordChar c = true) (h : scalar? word = some d) (rest : List Char) :
    readScalar (word ++ '\n' :: rest) = some (d, '\n' :: rest) := by
  simp only [readScalar, span_append_cons hword (y := '\n') rfl, h, Option.map_some]
  rfl

/-- A word at the end of a line is read as what it stands for. -/
lemma reads_of_isWordChar {word : List Char} {d : Datum}
    (hword : ∀ c ∈ word, isWordChar c = true) (h : scalar? word = some d) : Reads word d := by
  have hne : word ≠ [] := by
    rintro rfl
    cases h
  obtain ⟨c, text, rfl⟩ := List.exists_cons_of_ne_nil hne
  have hc := hword c List.mem_cons_self
  have hhead {a : Char} (ha : isWordChar a = false) (rest tail : List Char)
      (heq : c :: text ++ '\n' :: rest = a :: tail) : False :=
    ne_of_isWordChar hc ha (List.cons.inj heq).1
  refine ⟨fun rest => skipBlanks_of_isWordChar hc _, fun steps depth rest => ?_⟩
  rw [readValue.eq_8 depth _ steps (hhead rfl rest) (hhead rfl rest)
    (fun tail _ => hhead rfl rest tail) (fun tail _ => hhead rfl rest tail)
    (fun _ tail _ => hhead rfl rest tail) (fun _ tail _ => hhead rfl rest tail)]
  exact readScalar_of_isWordChar hword h rest

/-- Whether a character stands for itself between double marks. -/
def isUnescaped (c : Char) : Bool :=
  isPlain c && c ≠ '"' && c ≠ '\\'

/-- Text without anything to escape is read back. -/
lemma readBasic_of_isUnescaped {text : List Char} (h : ∀ c ∈ text, isUnescaped c = true)
    (rest : List Char) : readBasic (text ++ '"' :: rest) = some (text, rest) := by
  induction text with
  | nil => rfl
  | cons c text ih =>
    obtain ⟨hc, htext⟩ := List.forall_mem_cons.mp h
    simp only [isUnescaped, Bool.and_eq_true, decide_eq_true_eq] at hc
    obtain ⟨⟨hplain, hmark⟩, hslash⟩ := hc
    rw [List.cons_append, readBasic.eq_6 c _ hmark (fun _ _ _ h => absurd h hslash)
      (fun _ _ _ _ _ h => absurd h hslash) (fun _ _ _ _ _ _ _ _ _ h => absurd h hslash)
      (fun _ _ h => absurd h hslash), ih htext, if_pos (by simp [hplain, hslash])]
    rfl

/-- Text between double marks is read back. -/
lemma reads_quoted {s : String} (h : ∀ c ∈ s.toList, isUnescaped c = true) :
    Reads ('"' :: s.toList ++ ['"']) (.text s) := by
  refine ⟨fun rest => rfl, fun steps depth rest => ?_⟩
  have hmarks (more : List Char) :
      s.toList ++ '"' :: '\n' :: rest = '"' :: '"' :: more → False := by
    cases htext : s.toList with
    | nil => exact nofun
    | cons c text =>
      intro heq
      have hc := h c (htext ▸ List.mem_cons_self)
      rw [(List.cons.inj heq).1] at hc
      cases hc
  rw [List.cons_append, List.cons_append, List.append_assoc, List.singleton_append,
    readValue.eq_6, readQuoted.eq_2 _ hmarks, readBasic_of_isUnescaped h, Option.map_some,
    Option.map_some]
  simp only [String.ofList_toList]

/-! ### Data of settings files -/

/-- The data that a settings file gives back: numbers that are finite, truth values, and texts
without anything to escape. -/
inductive Readable : Datum → Prop where
  /-- Every integer. -/
  | integer (n : Int) : Readable (.integer n)
  /-- The finite numbers. -/
  | float {x : Float} (h : x.isFinite = true) : Readable (.float x)
  /-- The truth values. -/
  | boolean (b : Bool) : Readable (.boolean b)
  /-- Texts that are written as they are. -/
  | text {s : String} (h : ∀ c ∈ s.toList, isUnescaped c = true) : Readable (.text s)

/-- Data that is read back takes the place of other data. -/
lemma Readable.merge {d : Datum} (h : Readable d) (other : Datum) : Datum.merge d other = d := by
  cases h <;> rfl

/-- What is written for a datum is read as the datum. -/
lemma reads_writeDatum {d : Datum} (hd : Readable d) {text : String}
    (h : Settings.writeDatum d = .ok text) : Reads text.toList d := by
  have hfigures {word : List Char} (h : ∀ c ∈ word, isFigure c = true) :
      ∀ c ∈ word, isWordChar c = true := fun c hc => isWordChar_of_isFigure (h c hc)
  cases hd with
  | integer n =>
    rw [Settings.writeDatum] at h
    split at h
    · next hfits =>
      cases h
      exact reads_of_isWordChar (hfigures (isFigure_toString n)) (scalar?_toString hfits)
    · cases h
  | float hfinite =>
    cases h
    exact reads_of_isWordChar (hfigures (isFigure_write hfinite)) (scalar?_write hfinite)
  | boolean b =>
    cases h
    cases b
    · exact reads_of_isWordChar (List.all_eq_true.mp (by decide)) rfl
    · exact reads_of_isWordChar (List.all_eq_true.mp (by decide)) rfl
  | @text s hunescaped =>
    cases h
    rw [String.toList_append, String.toList_append]
    exact reads_quoted hunescaped

/-! ### Lines -/

/-- A key that stands without quotation marks. -/
structure IsBare (key : String) : Prop where
  /-- There is a character. -/
  ne_nil : key.toList ≠ []
  /-- There are characters of keys only. -/
  isKeyChar : ∀ c ∈ key.toList, isKeyChar c = true

/-- The name of the section of the settings is bare. -/
lemma isBare_sectionName : IsBare Settings.sectionName :=
  ⟨by decide, List.all_eq_true.mp (by decide)⟩

/-- All keys of settings are bare. -/
lemma isBare_of_mem_keys {key : String} (h : key ∈ Settings.keys) : IsBare key := by
  have hkeys : ∀ key ∈ Settings.keys,
      key.toList ≠ [] ∧ key.toList.all Document.isKeyChar = true := by
    decide
  exact ⟨(hkeys key h).1, List.all_eq_true.mp (hkeys key h).2⟩

/-- A bare key begins like a word. -/
lemma IsBare.toList_eq_cons {key : String} (h : IsBare key) :
    ∃ c name, key.toList = c :: name ∧ isWordChar c = true := by
  obtain ⟨c, name, hcons⟩ := List.exists_cons_of_ne_nil h.ne_nil
  exact ⟨c, name, hcons,
    isWordChar_of_isKeyChar (h.isKeyChar c (hcons ▸ List.mem_cons_self))⟩

/-- A bare key is no empty line. -/
lemma IsBare.skipLines {key : String} (h : IsBare key) (rest : List Char) :
    skipLines false (key.toList ++ rest) = some (key.toList ++ rest) := by
  obtain ⟨c, name, hcons, hc⟩ := h.toList_eq_cons
  rw [hcons]
  exact skipLines_of_isWordChar hc _

/-- A bare key is read back. -/
lemma readKey_of_isBare {key : String} (h : IsBare key) {c : Char} (hc : isKeyChar c = false)
    (rest : List Char) : readKey (key.toList ++ c :: rest) = some (key, c :: rest) := by
  obtain ⟨first, name, hcons, hfirst⟩ := h.toList_eq_cons
  have hhead {a : Char} (ha : isWordChar a = false) (tail : List Char)
      (heq : key.toList ++ c :: rest = a :: tail) : False := by
    rw [hcons] at heq
    exact ne_of_isWordChar hfirst ha (List.cons.inj heq).1
  rw [readKey.eq_3 _ (hhead rfl) (hhead rfl)]
  simp only [span_append_cons h.isKeyChar hc, String.ofList_toList]
  rw [hcons]
  rfl

/-- A bare key is a path of its own. -/
lemma readPath_of_isBare {key : String} (h : IsBare key) {c : Char} (hc : isKeyChar c = false)
    {rest more : List Char} (hmore : skipBlanks (c :: rest) = more)
    (hpoint : ∀ further, more ≠ '.' :: further) :
    readPath (key.toList ++ c :: rest) = some ([key], more) := by
  have hblanks : skipBlanks (key.toList ++ c :: rest) = key.toList ++ c :: rest := by
    obtain ⟨first, name, hcons, hfirst⟩ := h.toList_eq_cons
    rw [hcons]
    exact skipBlanks_of_isWordChar hfirst _
  change readKeys (79 + 1) _ = _
  rw [readKeys, hblanks, readKey_of_isBare h hc]
  simp only [Option.bind_eq_bind, Option.bind_some, hmore]

/-- A header is read back. -/
lemma readStatement_header {name : String} (h : IsBare name) (rest : List Char) :
    readStatement ('[' :: (name.toList ++ ']' :: rest)) = some (.header [name], rest) := by
  have hsingle (more : List Char) (heq : name.toList ++ ']' :: rest = '[' :: more) : False := by
    obtain ⟨c, text, hcons, hc⟩ := h.toList_eq_cons
    rw [hcons] at heq
    exact ne_of_isWordChar hc rfl (List.cons.inj heq).1
  have hbracket : skipBlanks (']' :: rest) = ']' :: rest := rfl
  rw [readStatement.eq_2 _ hsingle, readPath_of_isBare h rfl hbracket (fun _ => nofun)]
  rfl

/-- A line is read back. -/
lemma readStatement_line {key : String} (hkey : IsBare key) {text : List Char} {d : Datum}
    (h : Reads text d) (rest : List Char) :
    readStatement (key.toList ++ ' ' :: '=' :: ' ' :: (text ++ '\n' :: rest)) =
      some (.assignment [key] d, '\n' :: rest) := by
  obtain ⟨c, name, hcons, hc⟩ := hkey.toList_eq_cons
  have hheader (more : List Char)
      (heq : key.toList ++ ' ' :: '=' :: ' ' :: (text ++ '\n' :: rest) = '[' :: more) : False := by
    rw [hcons] at heq
    exact ne_of_isWordChar hc rfl (List.cons.inj heq).1
  have hvalue : skipBlanks (' ' :: (text ++ '\n' :: rest)) = text ++ '\n' :: rest :=
    h.skipBlanks rest
  have hsign : skipBlanks (' ' :: '=' :: ' ' :: (text ++ '\n' :: rest)) =
      '=' :: ' ' :: (text ++ '\n' :: rest) := rfl
  rw [readStatement.eq_3 _ (fun more => hheader ('[' :: more)) hheader,
    readPath_of_isBare hkey rfl hsign (fun _ => nofun)]
  change ((readValue _ greatestDepth (skipBlanks (' ' :: (text ++ '\n' :: rest)))).bind
    fun read => some (Statement.assignment [key] read.1, read.2)) = _
  rw [hvalue, h.readValue, Option.bind_some]

/-- A statement is read, and then those of the following lines. -/
lemma readStatements_succ {text more : List Char} {statement : Statement} (hne : text ≠ [])
    (hskip : skipLines false text = some text)
    (hstatement : readStatement text = some (statement, '\n' :: more)) (steps : Nat) :
    readStatements (steps + 1) text = (readStatements steps more).map (statement :: ·) := by
  obtain ⟨c, rest, rfl⟩ := List.exists_cons_of_ne_nil hne
  rw [readStatements, hskip]
  simp only [Option.bind_eq_bind, Option.bind_some, hstatement, endLine_newline]
  cases readStatements steps more <;> rfl

/-- The statement of a line. -/
def assignment (entry : String × Datum) : Statement :=
  .assignment [entry.1] entry.2

/-- Lines are read back one after the other. -/
lemma readStatements_writeEntries {entries : List (String × Datum)}
    (hkeys : ∀ entry ∈ entries, IsBare entry.1) (hdata : ∀ entry ∈ entries, Readable entry.2)
    {lines : String} (h : Settings.writeEntries entries = .ok lines) {steps : Nat}
    (hsteps : lines.toList.length < steps) :
    readStatements steps lines.toList = some (entries.map assignment) := by
  induction entries generalizing lines steps with
  | nil =>
    cases h
    obtain ⟨steps, rfl⟩ := Nat.exists_eq_succ_of_ne_zero (Nat.ne_zero_of_lt hsteps)
    rfl
  | cons entry rest ih =>
    obtain ⟨key, d⟩ := entry
    obtain ⟨hkey, hkeys⟩ := List.forall_mem_cons.mp hkeys
    obtain ⟨hd, hdata⟩ := List.forall_mem_cons.mp hdata
    simp only [Settings.writeEntries] at h
    obtain ⟨text, htext, h⟩ := bind_eq_ok.mp h
    obtain ⟨more, hmore, h⟩ := bind_eq_ok.mp h
    cases h
    have hletters : (key ++ " = " ++ text ++ "\n" ++ more).toList =
        key.toList ++ ' ' :: '=' :: ' ' :: (text.toList ++ '\n' :: more.toList) := by
      simp only [String.toList_append, List.append_assoc]
      rfl
    obtain ⟨steps, rfl⟩ := Nat.exists_eq_succ_of_ne_zero (Nat.ne_zero_of_lt hsteps)
    rw [hletters] at hsteps ⊢
    have hfurther : more.toList.length < steps := by
      simp only [List.length_append, List.length_cons] at hsteps
      omega
    rw [readStatements_succ (List.append_ne_nil_of_left_ne_nil hkey.ne_nil _) (hkey.skipLines _)
      (readStatement_line hkey (reads_writeDatum hd htext) _), ih hkeys hdata hmore hfurther]
    rfl

/-! ### Documents -/

namespace Outline

/-- Nothing is under a new key. -/
lemma lookup_of_not_mem {key : String} {entries : Entries} (h : key ∉ entries.map Prod.fst) :
    lookup key entries = none := by
  rw [lookup, find?_of_not_mem h, Option.map_none]

/-- A new key comes last. -/
lemma put_of_not_mem {key : String} (o : Outline) {entries : Entries}
    (h : key ∉ entries.map Prod.fst) : put key o entries = entries ++ [(key, o)] := by
  induction entries with
  | nil => rfl
  | cons entry rest ih =>
    rw [List.map_cons, List.mem_cons, not_or] at h
    rw [put, if_neg (by rw [beq_iff_eq]; exact Ne.symm h.1), ih h.2, List.cons_append]

/-- A datum under its key, as part of an outline. -/
def valued (entry : String × Datum) : String × Outline :=
  (entry.1, .value entry.2)

/-- The data of an outline of values. -/
lemma data_valued (entries : List (String × Datum)) : data (entries.map valued) = entries := by
  induction entries with
  | nil => rw [List.map_nil, data]
  | cons entry rest ih => rw [List.map_cons, valued, data, datum, ih]

end Outline

open Outline

/-- A document with one table, which a header has opened. -/
def opened (name : String) (entries : Entries) : Draft :=
  ⟨[(name, .table .header entries)], [name]⟩

/-- The line of a new key adds an entry. -/
lemma apply_assignment {name : String} {known : Entries} {entry : String × Datum}
    (h : entry.1 ∉ known.map Prod.fst) :
    (opened name known).apply (assignment entry) =
      some (opened name (known ++ [valued entry])) := by
  have hlookup (o : Outline) : lookup name [(name, o)] = some o := by
    simp [lookup]
  have hput (o o' : Outline) : put name o' [(name, o)] = [(name, o')] := by
    simp [put]
  have hassign : assign entry.2 [entry.1] known = some (known ++ [valued entry]) := by
    rw [assign, lookup_of_not_mem h, if_neg (by decide), put_of_not_mem _ h]
    rfl
  simp only [opened, Draft.apply, assignment, beneath, hlookup, hput, hassign,
    Option.bind_eq_bind, Option.bind_some]

/-- The lines of different keys add their entries in order. -/
lemma foldlM_assignment {name : String} {known : Entries} {entries : List (String × Datum)}
    (h : (known.map Prod.fst ++ entries.map Prod.fst).Nodup) :
    (entries.map assignment).foldlM Draft.apply (opened name known) =
      some (opened name (known ++ entries.map valued)) := by
  induction entries generalizing known with
  | nil => simp
  | cons entry rest ih =>
    rw [List.map_cons] at h
    have hnew : entry.1 ∉ known.map Prod.fst := by
      intro hmem
      exact List.disjoint_of_nodup_append h hmem List.mem_cons_self
    have hrest : ((known ++ [valued entry]).map Prod.fst ++ rest.map Prod.fst).Nodup := by
      rwa [List.map_append, List.append_assoc]
    rw [List.map_cons, List.foldlM_cons, apply_assignment hnew, Option.bind_eq_bind,
      Option.bind_some, ih hrest, List.map_cons, List.append_assoc, List.singleton_append]

/-- A settings file is read as the data that is written into it. -/
theorem read_file {name : String} (hname : IsBare name) {entries : List (String × Datum)}
    (hkeys : ∀ entry ∈ entries, IsBare entry.1) (hnodup : (entries.map Prod.fst).Nodup)
    (hdata : ∀ entry ∈ entries, Readable entry.2) {lines : String}
    (h : Settings.writeEntries entries = .ok lines) :
    read (dropMark ("[" ++ name ++ "]\n" ++ lines).toList) = some [(name, .table entries)] := by
  have hletters : ("[" ++ name ++ "]\n" ++ lines).toList =
      '[' :: (name.toList ++ ']' :: '\n' :: lines.toList) := by
    simp only [String.toList_append, List.append_assoc]
    rfl
  have hmark (rest : List Char) : dropMark ('[' :: rest) = '[' :: rest := rfl
  have hlines : lines.toList.length <
      ('[' :: (name.toList ++ ']' :: '\n' :: lines.toList)).length := by
    simp only [List.length_cons, List.length_append]
    omega
  rw [hletters, hmark, read, hmark, readStatements_succ (List.cons_ne_nil _ _) rfl
    (readStatement_header hname _), readStatements_writeEntries hkeys hdata h hlines,
    Option.map_some]
  have hheader : Draft.apply {} (.header [name]) = some (opened name []) := rfl
  have hfold : (entries.map assignment).foldlM Draft.apply (opened name []) =
      some (opened name ([] ++ entries.map valued)) :=
    foldlM_assignment (by rwa [List.map_nil, List.nil_append])
  simp only [Option.bind_eq_bind, Option.bind_some, List.foldlM_cons, hheader, hfold,
    List.nil_append]
  rw [opened, data, datum, data_valued, data]

end TreeEvolution.Document
