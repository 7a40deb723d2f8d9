import TreeEvolution.Proofs.Document.Tables
import TreeEvolution.Proofs.Outcomes
import TreeEvolution.Proofs.Settings
import TreeEvolution.Settings.Store

/-!
# Requests to stores

Whoever holds a store can change its settings or load others.  A request has success if the
settings that it asks for are accepted, and else it is without effect, so the settings of a store
are accepted after any requests (`valid_after`).
-/

namespace TreeEvolution.Store

/-- A request to a store. -/
inductive Request where
  /-- Change the settings. -/
  | update (change : Settings → Settings)
  /-- Replace the settings by those of a file under the variables of an environment. -/
  | load (file : Option String) (environment : List (String × String))

/-- What comes of a request. -/
def Request.attempt (store : Store) : Request → Except Failure Store
  | update change => (store.update change).mapError Failure.error
  | load file environment => store.load file environment

/-- The store after a request.  A request that fails is without effect. -/
def Request.perform (store : Store) (r : Request) : Store :=
  match r.attempt store with
  | .ok changed => changed
  | .error _ => store

/-- The store after some requests, which holds the default settings at first. -/
def after (requests : List Request) : Store :=
  requests.foldl Request.perform {}

lemma after_append (requests : List Request) (r : Request) :
    after (requests ++ [r]) = r.perform (after requests) := by
  rw [after, List.foldl_append, List.foldl_cons, List.foldl_nil, after]

/-! ### Requests that have success -/

/-- A computation has a value exactly if it has one under other names for its errors. -/
lemma mapError_eq_ok {ε ε' α : Type} {f : ε → ε'} {x : Except ε α} {a : α} :
    x.mapError f = .ok a ↔ x = .ok a := by
  cases x <;> simp [Except.mapError]

/-- Changed settings are kept if they are accepted. -/
lemma update_eq_ok {store changed : Store} {change : Settings → Settings} :
    store.update change = .ok changed ↔
      (change store.settings).Valid ∧ changed = ⟨change store.settings⟩ := by
  rw [update, bind_eq_ok, ← Settings.validate_eq_ok_iff]
  constructor
  · rintro ⟨_, hvalid, hchanged⟩
    cases hchanged
    exact ⟨hvalid, rfl⟩
  · rintro ⟨hvalid, rfl⟩
    exact ⟨(), hvalid, rfl⟩

/-- Changed settings that are accepted are kept. -/
lemma Request.attempt_update {store : Store} {change : Settings → Settings}
    (h : (change store.settings).Valid) :
    (update change).attempt store = .ok ⟨change store.settings⟩ := by
  rw [attempt, mapError_eq_ok, update_eq_ok]
  exact ⟨h, rfl⟩

/-- The data of a file with one section is its data, provided that it takes the place of other
data. -/
lemma collect_section {name : String} (hname : PathStep.path name = [.key name])
    {entries : List (String × Datum)} (hnodup : (entries.map Prod.fst).Nodup)
    (hmerge : ∀ entry ∈ entries, ∀ d, Datum.merge entry.2 d = entry.2)
    (environment : List (String × String)) :
    collect [(name, .table entries)] environment =
      Environment.override environment (.table [(name, .table entries)]) := by
  have hentries : Datum.mergeEntries entries [] = entries :=
    Datum.mergeEntries_of_nodup hnodup hmerge
  have hbase : Datum.mergeAt (PathStep.path name) (.table entries) (.table []) =
      .ok (.table [(name, .table entries)]) := by
    have hat : Datum.mergeAt [.key name] (.table entries) (.table []) =
        .ok (.table [(name, .table (Datum.mergeEntries entries []))]) := rfl
    rw [hname, hat, hentries]
  simp only [collect, List.foldlM_cons, hbase]
  rfl

/-- Settings are read if there is a file with data that are accepted as settings. -/
lemma read_eq_ok {file : Option String} {environment : List (String × String)} {s : Settings} :
    read file environment = .ok s ↔
      ∃ sections all, file.bind sections? = some sections ∧
        collect sections environment = .ok all ∧ Settings.ofSections? all = some s ∧ s.Valid := by
  unfold read
  rcases hsections : file.bind sections? with _ | sections
  · exact ⟨nofun, fun ⟨_, _, h, _⟩ => nomatch h⟩
  · simp only [bind_eq_ok, mapError_eq_ok]
    constructor
    · rintro ⟨all, hall, h⟩
      rcases hs : Settings.ofSections? all with _ | t
      · rw [hs] at h
        cases h
      · rw [hs] at h
        obtain ⟨_, hvalid, h⟩ := bind_eq_ok.mp h
        cases h
        exact ⟨sections, all, rfl, hall, hs,
          Settings.validate_eq_ok_iff.mp (mapError_eq_ok.mp hvalid)⟩
    · rintro ⟨_, all, ⟨⟩, hall, hs, hvalid⟩
      refine ⟨all, hall, ?_⟩
      rw [hs]
      exact bind_eq_ok.mpr ⟨(), mapError_eq_ok.mpr (Settings.validate_eq_ok_iff.mpr hvalid), rfl⟩

/-- Loading settings is reading them, whatever the store holds. -/
lemma load_eq_ok {store loaded : Store} {file : Option String}
    {environment : List (String × String)} :
    store.load file environment = .ok loaded ↔ read file environment = .ok loaded.settings := by
  rw [load, bind_eq_ok]
  constructor
  · rintro ⟨s, hs, h⟩
    cases h
    exact hs
  · intro h
    exact ⟨loaded.settings, h, rfl⟩

/-- Requests that have success lead to settings that are accepted. -/
lemma Request.valid_of_attempt {store changed : Store} {r : Request}
    (h : r.attempt store = .ok changed) : changed.settings.Valid := by
  cases r with
  | update change =>
    obtain ⟨hvalid, rfl⟩ := update_eq_ok.mp (mapError_eq_ok.mp h)
    exact hvalid
  | load file environment =>
    have hload : store.load file environment = .ok changed := h
    obtain ⟨-, -, -, -, -, hvalid⟩ := read_eq_ok.mp (load_eq_ok.mp hload)
    exact hvalid

/-! ### All requests -/

/-- A request keeps the settings of a store accepted. -/
lemma Request.valid_perform {store : Store} (h : store.settings.Valid) (r : Request) :
    (r.perform store).settings.Valid := by
  unfold perform
  split
  · next changed hchanged => exact valid_of_attempt hchanged
  · exact h

/-- The default settings are accepted. -/
lemma valid_default : ({} : Settings).Valid :=
  Settings.validate_eq_ok_iff.mp rfl

/-- The settings of a store are accepted after any requests. -/
lemma valid_after (requests : List Request) : (after requests).settings.Valid := by
  have hstep {store : Store} (h : store.settings.Valid) :
      (requests.foldl Request.perform store).settings.Valid := by
    induction requests generalizing store with
    | nil => exact h
    | cons r requests ih => exact ih (r.valid_perform h)
  exact hstep valid_default

end TreeEvolution.Store
