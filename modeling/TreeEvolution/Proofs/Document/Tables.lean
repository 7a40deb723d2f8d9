import Mathlib.Data.List.Nodup
import TreeEvolution.Document.Datum

/-!
# Tables

A table has at most one datum under each key as long as its entries are put there one after the
other, and so tables that are merged have distinct keys.  Entries with new keys are added at the end
(`mergeEntries_of_nodup`), and what is put under a key is found there and nowhere else.
-/

namespace TreeEvolution

/-- No entry has a new key. -/
lemma find?_of_not_mem {α : Type} {key : String} {entries : List (String × α)}
    (h : key ∉ entries.map Prod.fst) : entries.find? (fun entry => entry.1 == key) = none := by
  rw [List.find?_eq_none]
  intro entry hentry hkey
  exact h (beq_iff_eq.mp hkey ▸ List.mem_map_of_mem hentry)

namespace Datum

variable {key other : String} {d : Datum} {entries additions : List (String × Datum)}

/-! ### One entry -/

/-- Something is under every key that there is. -/
lemma not_mem_of_lookup (h : lookup key entries = none) : key ∉ entries.map Prod.fst := by
  intro hmem
  obtain ⟨entry, hentry, rfl⟩ := List.mem_map.mp hmem
  have hnone := List.find?_eq_none.mp (Option.map_eq_none_iff.mp h) entry hentry
  exact hnone (beq_self_eq_true entry.1)

/-- The datum of the first entry is under its key. -/
lemma lookup_cons_self (key : String) (d : Datum) (entries : List (String × Datum)) :
    lookup key ((key, d) :: entries) = some d := by
  rw [lookup, List.find?_cons_of_pos (by exact beq_self_eq_true key), Option.map_some]

/-- Under other keys is what the other entries have there. -/
lemma lookup_cons_of_ne (h : other ≠ key) (d : Datum) (entries : List (String × Datum)) :
    lookup key ((other, d) :: entries) = lookup key entries := by
  rw [lookup, List.find?_cons_of_neg (by rw [beq_iff_eq]; exact h), lookup]

/-- What is put under a key is there. -/
lemma lookup_put_self (key : String) (d : Datum) (entries : List (String × Datum)) :
    lookup key (put key d entries) = some d := by
  induction entries with
  | nil => exact lookup_cons_self key d []
  | cons entry rest ih =>
    rw [put]
    split
    · exact lookup_cons_self key d rest
    · next hne =>
      rw [lookup_cons_of_ne (mt beq_iff_eq.mpr hne), ih]

/-- What is put under a key does not matter to other keys. -/
lemma lookup_put_of_ne (h : other ≠ key) (d : Datum) (entries : List (String × Datum)) :
    lookup other (put key d entries) = lookup other entries := by
  induction entries with
  | nil => exact lookup_cons_of_ne h.symm d []
  | cons entry rest ih =>
    obtain ⟨name, known⟩ := entry
    rw [put]
    split
    · next heq =>
      obtain rfl := beq_iff_eq.mp heq
      rw [lookup_cons_of_ne h.symm, lookup_cons_of_ne h.symm]
    · by_cases hname : name = other
      · subst hname
        rw [lookup_cons_self, lookup_cons_self]
      · rw [lookup_cons_of_ne hname, lookup_cons_of_ne hname, ih]

/-- A new key comes last. -/
lemma put_of_not_mem (d : Datum) (h : key ∉ entries.map Prod.fst) :
    put key d entries = entries ++ [(key, d)] := by
  induction entries with
  | nil => rfl
  | cons entry rest ih =>
    rw [List.map_cons, List.mem_cons, not_or] at h
    rw [put, if_neg (by rw [beq_iff_eq]; exact Ne.symm h.1), ih h.2, List.cons_append]

/-- A key that is known keeps its place. -/
lemma map_fst_put_of_mem (d : Datum) (h : key ∈ entries.map Prod.fst) :
    (put key d entries).map Prod.fst = entries.map Prod.fst := by
  induction entries with
  | nil => cases h
  | cons entry rest ih =>
    rw [put]
    split
    · next heq => rw [List.map_cons, List.map_cons, beq_iff_eq.mp heq]
    · next hne =>
      rw [List.map_cons, List.mem_cons] at h
      have hkey : key ≠ entry.1 := fun h => hne (beq_iff_eq.mpr h.symm)
      rw [List.map_cons, List.map_cons, ih (h.resolve_left hkey)]

/-- The keys of a table stay distinct. -/
lemma nodup_put (d : Datum) (h : (entries.map Prod.fst).Nodup) :
    ((put key d entries).map Prod.fst).Nodup := by
  by_cases hkey : key ∈ entries.map Prod.fst
  · rwa [map_fst_put_of_mem d hkey]
  · rw [put_of_not_mem d hkey, List.map_append]
    exact List.nodup_append_comm.mp (List.nodup_cons.mpr ⟨hkey, h⟩)

/-! ### Several entries -/

/-- The keys of a table stay distinct when entries are merged into it. -/
lemma nodup_mergeEntries (additions : List (String × Datum)) (h : (entries.map Prod.fst).Nodup) :
    ((mergeEntries additions entries).map Prod.fst).Nodup := by
  induction additions generalizing entries with
  | nil => rwa [mergeEntries]
  | cons addition rest ih =>
    obtain ⟨name, d⟩ := addition
    rw [mergeEntries]
    exact ih (nodup_put _ h)

/-- The keys of data stay distinct when other data is merged into it. -/
lemma nodup_merge (new : Datum) (h : (d.entries.map Prod.fst).Nodup) :
    ((merge new d).entries.map Prod.fst).Nodup := by
  cases new with
  | table additions =>
    rw [merge]
    exact nodup_mergeEntries additions h
  | _ => exact List.nodup_nil

/-- Entries with new keys, none of them a table, are added in order. -/
lemma mergeEntries_of_nodup (hnodup : (entries.map Prod.fst ++ additions.map Prod.fst).Nodup)
    (hmerge : ∀ entry ∈ additions, ∀ d, merge entry.2 d = entry.2) :
    mergeEntries additions entries = entries ++ additions := by
  induction additions generalizing entries with
  | nil => rw [mergeEntries, List.append_nil]
  | cons addition rest ih =>
    obtain ⟨name, d⟩ := addition
    obtain ⟨hd, hmerge⟩ := List.forall_mem_cons.mp hmerge
    have hnew : name ∉ entries.map Prod.fst := fun hmem =>
      List.disjoint_of_nodup_append hnodup hmem List.mem_cons_self
    have hrest : ((entries ++ [(name, d)]).map Prod.fst ++ rest.map Prod.fst).Nodup := by
      rwa [List.map_append, List.append_assoc]
    rw [mergeEntries, hd, put_of_not_mem d hnew, ih hrest hmerge, List.append_assoc,
      List.singleton_append]

end Datum

end TreeEvolution
