import Mathlib.Data.List.Nodup
import TreeEvolution.Proofs.Document.Tables
import TreeEvolution.Settings.Decoding

/-!
# Settings from data

Each key stands for one setting.  A datum under it determines that setting and leaves the others as
they are (`determines`), so when data is set under distinct keys, every setting is the one that its
datum gives, or else the one that there was before (`has_of_setAll?`, `datum_of_setAll?`).  The data
that settings are written as give the settings back (`setAll?_entries`).
-/

namespace TreeEvolution.Settings

variable {s t : Settings} {key other : String} {d : Datum} {entries : List (String × Datum)}

/-! ### Settings as data -/

/-- The settings as data, in the order of the keys.  There is none for an option that is unset. -/
def fields (s : Settings) : List (Option Datum) :=
  [some (.integer s.populationSize), some (.integer s.threads),
   s.seed.map (fun n => .integer n.toNat), some (.integer s.maxGenerations),
   some (.float s.targetFitness), some (.integer s.tournamentSize),
   some (.float s.crossoverProbability), some (.float s.mutationProbability),
   some (.text s.initMethod.name), some (.integer s.initMinDepth), some (.integer s.initMaxDepth),
   some (.integer s.mutationMinDepth), some (.integer s.mutationMaxDepth),
   s.depthLimit.map (fun n : Nat => .integer n), s.sizeLimit.map (fun n : Nat => .integer n),
   some (.boolean s.verbose)]

/-- The settings are written under their keys. -/
lemma entries_eq (s : Settings) :
    s.entries = (keys.zip s.fields).filterMap fun (key, d) => d.map (key, ·) := by
  obtain ⟨_, _, _, _, _, _, _, _, _, _, _, _, _, depthLimit, sizeLimit, _⟩ := s
  cases depthLimit <;> cases sizeLimit <;> rfl

/-- What some settings have under a key, as a datum. -/
def datum (s : Settings) (key : String) : Option Datum :=
  s.fields.getD (keys.idxOf key) none

/-- Settings have what a datum gives under a key: setting it once more changes nothing. -/
def Has (s : Settings) (key : String) (d : Datum) : Prop :=
  s.set? key d = some s

/-- A kind of growth is known by its name. -/
lemma growthNamed?_name (g : Growth) : Datum.growthNamed? g.name = some g := by
  cases g <;> rfl

/-- A natural number is one as a datum. -/
lemma natural?_natCast (n : Nat) : (Datum.integer n).natural? = some n := by
  rw [Datum.natural?, if_pos (Int.natCast_nonneg n), Int.toNat_natCast]

/-- The data that settings are written as give the settings back, and nothing of the default
settings remains. -/
lemma setAll?_entries (s : Settings) : setAll? {} s.entries = some s := by
  obtain ⟨_, _, seed, _, _, _, _, _, _, _, _, _, _, depthLimit, sizeLimit, _⟩ := s
  cases seed <;> cases depthLimit <;> cases sizeLimit <;>
    simp [entries, keys, setAll?, set?, natural?_natCast, growthNamed?_name, Datum.number?,
      Datum.growth?, Datum.truth?, Datum.option?]

/-- Settings are given by their data. -/
lemma fields_injective (h : s.fields = t.fields) : s = t := by
  have hentries : s.entries = t.entries := by
    rw [entries_eq, entries_eq, h]
  have hset := setAll?_entries s
  rw [hentries, setAll?_entries t] at hset
  exact (Option.some.inj hset).symm

/-! ### One datum -/

/-- A datum under a key determines one setting, and no other, unless nothing can be made of it. -/
def Determines (key : String) (d : Datum) : Prop :=
  (∀ s : Settings, s.set? key d = none) ∨ ∃ v, ∀ s : Settings, ∃ t, s.set? key d = some t ∧
    t.fields = s.fields.set (keys.idxOf key) v

/-- A datum determines a setting if the setting is what is read from it. -/
lemma determines_of_read {α : Type} {read : Datum → Option α} {write : Settings → α → Settings}
    (hset : ∀ s : Settings, s.set? key d = (read d).bind fun a => some (write s a))
    (hfields : ∀ s a, (write s a).fields =
      s.fields.set (keys.idxOf key) ((write {} a).datum key)) :
    Determines key d := by
  rcases hread : read d with _ | a
  · refine .inl fun s => ?_
    rw [hset, hread, Option.bind_none]
  · refine .inr ⟨(write {} a).datum key, fun s => ⟨write s a, ?_, hfields s a⟩⟩
    rw [hset, hread, Option.bind_some]

/-- A datum under one of the keys determines the setting that the key stands for. -/
lemma determines (hkey : key ∈ keys) (d : Datum) : Determines key d := by
  simp only [keys, List.mem_cons, List.not_mem_nil, or_false] at hkey
  rcases hkey with rfl | rfl | rfl | rfl | rfl | rfl | rfl | rfl | rfl | rfl | rfl | rfl | rfl |
    rfl | rfl | rfl
  all_goals exact determines_of_read (fun _ => rfl) (fun _ _ => rfl)

/-- Other keys mean nothing. -/
lemma set?_of_not_mem (hkey : key ∉ keys) (s : Settings) (d : Datum) : s.set? key d = some s := by
  unfold set?
  split
  all_goals first | rfl | exact absurd (by decide) hkey

/-- There is a field for each key. -/
lemma idxOf_lt_length_fields (hkey : key ∈ keys) (s : Settings) :
    keys.idxOf key < s.fields.length :=
  List.idxOf_lt_length_of_mem hkey

/-- The field of a key is what is put there. -/
lemma datum_of_fields_eq_set {v : Option Datum} (hkey : key ∈ keys)
    (h : t.fields = s.fields.set (keys.idxOf key) v) : t.datum key = v := by
  rw [datum, h, List.getD_eq_getElem?_getD, List.getElem?_set_self (idxOf_lt_length_fields hkey s),
    Option.getD_some]

/-- The fields of other keys stay as they are. -/
lemma datum_of_fields_eq_set_of_ne {v : Option Datum} (hkey : key ∈ keys) (hne : other ≠ key)
    (h : t.fields = s.fields.set (keys.idxOf other) v) : t.datum key = s.datum key := by
  have hindex : keys.idxOf other ≠ keys.idxOf key := fun hindex =>
    hne ((List.idxOf_inj hkey).mp hindex.symm).symm
  rw [datum, datum, h, List.getD_eq_getElem?_getD, List.getElem?_set_ne hindex,
    List.getD_eq_getElem?_getD]

/-- Putting the field of a key there once more changes nothing. -/
lemma fields_set_datum (hkey : key ∈ keys) (s : Settings) :
    s.fields.set (keys.idxOf key) (s.datum key) = s.fields := by
  have hindex := idxOf_lt_length_fields hkey s
  rw [datum, List.getD_eq_getElem?_getD, List.getElem?_eq_getElem hindex, Option.getD_some,
    List.set_getElem_self hindex]

/-- Settings have what a datum gives exactly if they have the field that it determines. -/
lemma has_iff (hkey : key ∈ keys) (h : s.set? key d = some t) (u : Settings) :
    u.Has key d ↔ u.datum key = t.datum key := by
  rcases determines hkey d with hnone | ⟨v, hv⟩
  · rw [hnone] at h
    cases h
  · obtain ⟨t', ht', hfields⟩ := hv s
    rw [h] at ht'
    cases ht'
    rw [datum_of_fields_eq_set hkey hfields]
    obtain ⟨w, hw, hfields⟩ := hv u
    rw [Has, hw]
    constructor
    · intro hu
      cases hu
      exact datum_of_fields_eq_set hkey hfields
    · rintro rfl
      rw [fields_set_datum hkey u] at hfields
      rw [fields_injective hfields]

/-- The other settings stay as they are. -/
lemma datum_of_set? (hkey : key ∈ keys) (hne : other ≠ key) (h : s.set? other d = some t) :
    t.datum key = s.datum key := by
  by_cases hother : other ∈ keys
  · rcases determines hother d with hnone | ⟨v, hv⟩
    · rw [hnone] at h
      cases h
    · obtain ⟨t', ht', hfields⟩ := hv s
      rw [h] at ht'
      cases ht'
      exact datum_of_fields_eq_set_of_ne hkey hne hfields
  · rw [set?_of_not_mem hother] at h
    cases h
    rfl

/-! ### Several data -/

/-- Settings that are not set stay as they are. -/
lemma datum_of_setAll? (h : setAll? s entries = some t) (hkey : key ∈ keys)
    (hnew : key ∉ entries.map Prod.fst) : t.datum key = s.datum key := by
  induction entries generalizing s with
  | nil =>
    cases h
    rfl
  | cons entry rest ih =>
    rw [List.map_cons, List.mem_cons, not_or] at hnew
    obtain ⟨u, hu, hrest⟩ := Option.bind_eq_some_iff.mp h
    rw [ih hrest hnew.2, datum_of_set? hkey (Ne.symm hnew.1) hu]

/-- Settings that are set under distinct keys have what the data gives. -/
lemma has_of_setAll? (hnodup : (entries.map Prod.fst).Nodup) (h : setAll? s entries = some t)
    (hkey : key ∈ keys) (hd : Datum.lookup key entries = some d) : t.Has key d := by
  induction entries generalizing s with
  | nil => cases hd
  | cons entry rest ih =>
    obtain ⟨name, given⟩ := entry
    obtain ⟨hname, hnodup⟩ := List.nodup_cons.mp hnodup
    obtain ⟨u, hu, hrest⟩ := Option.bind_eq_some_iff.mp h
    by_cases heq : name = key
    · subst heq
      rw [Datum.lookup_cons_self] at hd
      cases hd
      exact (has_iff hkey hu t).mpr (datum_of_setAll? hrest hkey hname)
    · rw [Datum.lookup_cons_of_ne heq] at hd
      exact ih hnodup hrest hd

end TreeEvolution.Settings
