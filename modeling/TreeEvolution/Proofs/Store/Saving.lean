import TreeEvolution.Proofs.Document.Lines
import TreeEvolution.Proofs.Settings.Decoding
import TreeEvolution.Proofs.Store.Requests

/-!
# Saving and loading settings

The settings of a store can be saved exactly if the integers among them are integers of a settings
file (`saving_fails_iff`).  The check of settings says nothing about that, so there are settings
that are accepted but cannot be saved.

What has been saved can be loaded again, and every store then holds the settings that were saved
(`saved_settings_are_loaded`).  The texts are read as the data that was written, the data is found
under its keys, and nothing of the default settings remains, since the options that the file leaves
out are unset by default.
-/

namespace TreeEvolution

namespace Settings

variable {s : Settings} {d : Datum} {entries : List (String × Datum)}

/-! ### The entries of settings -/

/-- The keys of settings that are written are some of all keys, in order. -/
lemma map_fst_filterMap_sublist (names : List String) (data : List (Option Datum)) :
    (((names.zip data).filterMap fun (key, d) => d.map (key, ·)).map Prod.fst).Sublist names := by
  induction names generalizing data with
  | nil => exact List.Sublist.refl []
  | cons name names ih =>
    rcases data with _ | ⟨_ | d, data⟩
    · exact List.nil_sublist _
    · exact (ih data).cons name
    · exact (ih data).cons_cons name

/-- The keys of settings are distinct. -/
lemma nodup_entries (s : Settings) : (s.entries.map Prod.fst).Nodup := by
  rw [entries_eq]
  exact (map_fst_filterMap_sublist keys s.fields).nodup (by decide)

/-- Settings are written under their keys. -/
lemma mem_keys_of_mem_entries {entry : String × Datum} (h : entry ∈ s.entries) :
    entry.1 ∈ keys := by
  rw [entries_eq] at h
  exact (map_fst_filterMap_sublist keys s.fields).subset (List.mem_map_of_mem h)

/-- All data for which there is a key is written. -/
lemma exists_mem_filterMap_iff {names : List String} {data : List (Option Datum)}
    (h : data.length ≤ names.length) :
    (∃ key, (key, d) ∈ (names.zip data).filterMap fun (key, d) => d.map (key, ·)) ↔
      some d ∈ data := by
  induction names generalizing data with
  | nil =>
    rw [List.eq_nil_of_length_eq_zero (Nat.le_zero.mp h)]
    simp
  | cons name names ih =>
    rcases data with _ | ⟨first, data⟩
    · simp
    · rw [List.mem_cons, ← ih (Nat.le_of_succ_le_succ h)]
      cases first with
      | none => simp
      | some first => simp [exists_or]

/-- The data of settings is what is written. -/
lemma exists_mem_entries_iff : (∃ key, (key, d) ∈ s.entries) ↔ some d ∈ s.fields := by
  rw [entries_eq]
  exact exists_mem_filterMap_iff (Nat.le_refl 16)

/-- The integers among the settings. -/
def integers (s : Settings) : List Nat :=
  [s.populationSize, s.threads, s.maxGenerations, s.tournamentSize, s.initMinDepth,
    s.initMaxDepth, s.mutationMinDepth, s.mutationMaxDepth] ++
    s.seed.toList.map UInt64.toNat ++ s.depthLimit.toList ++ s.sizeLimit.toList

/-- What is written of settings: their integers, three numbers, the name of a kind of growth, and a
truth value. -/
lemma mem_fields_iff : some d ∈ s.fields ↔ (∃ n ∈ s.integers, d = .integer n) ∨
    d = .float s.targetFitness ∨ d = .float s.crossoverProbability ∨
    d = .float s.mutationProbability ∨ d = .text s.initMethod.name ∨ d = .boolean s.verbose := by
  simp only [fields, integers, List.mem_cons, List.not_mem_nil, or_false, Option.some.injEq,
    List.mem_append, List.mem_map, Option.mem_toList, or_and_right, exists_or, exists_eq_left,
    eq_comm (a := some d), Option.map_eq_some_iff, exists_exists_and_eq_and, eq_comm (a := d)]
  grind

/-! ### Saving -/

/-- The greatest integer of a settings file is followed by this one. -/
def beyondFiles : Nat := 0x8000000000000000

lemma fitsWord_natCast (n : Nat) : Text.fitsWord n = true ↔ n < beyondFiles := by
  rw [Text.fitsWord, Bool.and_eq_true, decide_eq_true_iff, decide_eq_true_iff, beyondFiles]
  omega

/-- Entries are written if each of them is. -/
lemma exists_writeEntries (h : ∀ entry ∈ entries, ∃ text, writeDatum entry.2 = .ok text) :
    ∃ lines, writeEntries entries = .ok lines := by
  induction entries with
  | nil => exact ⟨"", rfl⟩
  | cons entry rest ih =>
    obtain ⟨⟨text, htext⟩, hrest⟩ := List.forall_mem_cons.mp h
    obtain ⟨lines, hlines⟩ := ih hrest
    exact ⟨_, bind_eq_ok.mpr ⟨text, htext, bind_eq_ok.mpr ⟨lines, hlines, rfl⟩⟩⟩

/-- Data that is not written is refused as such. -/
lemma error_of_writeDatum {e : Error} (h : writeDatum d = .error e) : e = .unwritableSettings := by
  unfold writeDatum at h
  split at h
  · split at h
    · cases h
    · exact (Except.error.inj h).symm
  all_goals first | exact (Except.error.inj h).symm | cases h

/-- Entries of which one cannot be written are not written. -/
lemma writeEntries_eq_error {entry : String × Datum} (hentry : entry ∈ entries)
    (h : writeDatum entry.2 = .error .unwritableSettings) :
    writeEntries entries = .error .unwritableSettings := by
  induction entries with
  | nil => cases hentry
  | cons first rest ih =>
    rw [writeEntries, bind_eq_error]
    rcases List.mem_cons.mp hentry with rfl | hentry
    · exact .inl h
    · rcases hfirst : writeDatum first.2 with e | text
      · rw [error_of_writeDatum hfirst]
        exact .inl rfl
      · exact .inr ⟨text, rfl, bind_eq_error.mpr (.inl (ih hentry))⟩

/-- Settings are written if their integers are those of a settings file. -/
lemma exists_write (h : ∀ n ∈ s.integers, n < beyondFiles) : ∃ text, s.write = .ok text := by
  have hentries : ∀ entry ∈ s.entries, ∃ text, writeDatum entry.2 = .ok text := by
    rintro ⟨key, d⟩ hentry
    rcases mem_fields_iff.mp (exists_mem_entries_iff.mp ⟨key, hentry⟩) with
      ⟨n, hn, rfl⟩ | rfl | rfl | rfl | rfl | rfl
    · exact ⟨_, if_pos ((fitsWord_natCast n).mpr (h n hn))⟩
    all_goals exact ⟨_, rfl⟩
  obtain ⟨lines, hlines⟩ := exists_writeEntries hentries
  exact ⟨_, bind_eq_ok.mpr ⟨lines, hlines, rfl⟩⟩

/-- Settings with another integer are not written. -/
lemma write_eq_error {n : Nat} (hn : n ∈ s.integers) (h : beyondFiles ≤ n) :
    s.write = .error .unwritableSettings := by
  obtain ⟨key, hentry⟩ := exists_mem_entries_iff.mpr (mem_fields_iff.mpr (.inl ⟨n, hn, rfl⟩))
  have hdatum : writeDatum (.integer n) = .error .unwritableSettings :=
    if_neg (mt (fitsWord_natCast n).mp (Nat.not_lt.mpr h))
  exact bind_eq_error.mpr (.inl (writeEntries_eq_error hentry hdatum))

end Settings

namespace Store

/-- Saving to a file that can be written is writing the settings. -/
lemma save_true (store : Store) : store.save true = store.settings.write := by
  rw [save]
  rcases store.settings.write with e | text
  · rfl
  · rfl

/-- Every seed is accepted. -/
lemma attempt_seed {store : Store} (h : store.settings.Valid) (seed : UInt64) :
    (Request.update fun s => { s with seed := some seed }).attempt store =
      .ok ⟨{ store.settings with seed := some seed }⟩ := by
  have hvalid : Settings.Valid { store.settings with seed := some seed } := { h with }
  exact Request.attempt_update hvalid

/-- **Which settings can be saved.**  After any requests, saving the settings to a file that can be
written is refused exactly if one of their integers is not an integer of a settings file, and it has
success otherwise.  The check of settings does not look at that: whatever the settings are, every
seed is accepted, but then those beyond the integers of settings files are not saved. -/
theorem saving_fails_iff (requests : List Request) :
    ((after requests).save true = .error .unwritableSettings ↔
        ∃ n ∈ (after requests).settings.integers, Settings.beyondFiles ≤ n) ∧
      ((∃ text, (after requests).save true = .ok text) ↔
        ∀ n ∈ (after requests).settings.integers, n < Settings.beyondFiles) ∧
      ∀ seed : UInt64,
        after (requests ++ [.update fun s => { s with seed := some seed }]) =
            ⟨{ (after requests).settings with seed := some seed }⟩ ∧
          (Settings.beyondFiles ≤ seed.toNat →
            (after (requests ++ [.update fun s => { s with seed := some seed }])).save true =
              .error .unwritableSettings) := by
  have hsaved {s : Settings} (h : ∀ n ∈ s.integers, n < Settings.beyondFiles) :
      ∃ text, save ⟨s⟩ true = .ok text := by
    rw [save_true]
    exact Settings.exists_write h
  have hrefused {s : Settings} {n : Nat} (hn : n ∈ s.integers) (h : Settings.beyondFiles ≤ n) :
      save ⟨s⟩ true = .error .unwritableSettings := by
    rw [save_true]
    exact Settings.write_eq_error hn h
  refine ⟨⟨fun h => ?_, fun ⟨n, hn, hlarge⟩ => hrefused hn hlarge⟩,
    ⟨fun ⟨text, htext⟩ n hn => ?_, hsaved⟩, fun seed => ?_⟩
  · by_contra hnone
    push Not at hnone
    obtain ⟨text, htext⟩ := hsaved hnone
    rw [htext] at h
    cases h
  · by_contra hlarge
    rw [hrefused hn (Nat.le_of_not_lt hlarge)] at htext
    cases htext
  · have hafter : after (requests ++ [.update fun s => { s with seed := some seed }]) =
        ⟨{ (after requests).settings with seed := some seed }⟩ := by
      rw [after_append, Request.perform, attempt_seed (valid_after requests)]
    refine ⟨hafter, fun hlarge => ?_⟩
    rw [hafter]
    exact hrefused (n := seed.toNat) (by simp [Settings.integers]) hlarge

/-- The greatest integer of settings files is saved as a seed, and the next one is not. -/
theorem seeds_beside_greatest_integer :
    (∃ text, (after [.update fun s => { s with seed := some 0x7FFFFFFFFFFFFFFF }]).save true =
        .ok text) ∧
      (after [.update fun s => { s with seed := some 0x8000000000000000 }]).save true =
        .error .unwritableSettings := by
  obtain ⟨-, -, hseeds⟩ := saving_fails_iff []
  refine ⟨?_, (hseeds 0x8000000000000000).2 (by decide)⟩
  obtain ⟨-, hsaved, -⟩ :=
    saving_fails_iff [.update fun s => { s with seed := some 0x7FFFFFFFFFFFFFFF }]
  rw [hsaved]
  have hafter := (hseeds 0x7FFFFFFFFFFFFFFF).1
  rw [List.nil_append] at hafter
  rw [hafter]
  decide

/-- A seed beyond the integers of settings files is accepted, and then the settings are not
saved. -/
theorem large_seed_is_not_saved :
    ∃ store, (Request.update fun s => { s with seed := some 0x8000000000000000 }).attempt {} =
        .ok store ∧ store.settings.validate = .ok () ∧
      store.save true = .error .unwritableSettings := by
  refine ⟨_, attempt_seed valid_default _, rfl, ?_⟩
  rw [save_true]
  exact Settings.write_eq_error (n := 0x8000000000000000) (by decide) (Nat.le_refl _)

end Store

/-! ### Loading what was saved -/

namespace Settings

variable {s : Settings}

/-- Probabilities are finite. -/
lemma isFinite_of_isProbability {p : Float} (h : isProbability p = true) : p.isFinite = true := by
  rw [isProbability, Bool.and_eq_true, decide_eq_true_iff, decide_eq_true_iff] at h
  exact Decimal.isFinite_of_le_of_le (x := 0) (z := 1) (by decide) (by decide) h.1 h.2

/-- The data of accepted settings is read back. -/
lemma readable_entries (h : s.Valid) : ∀ entry ∈ s.entries, Document.Readable entry.2 := by
  rintro ⟨key, d⟩ hentry
  rcases mem_fields_iff.mp (exists_mem_entries_iff.mp ⟨key, hentry⟩) with
    ⟨n, -, rfl⟩ | rfl | rfl | rfl | rfl | rfl
  · exact .integer n
  · exact .float (isFinite_of_isProbability h.targetFitness)
  · exact .float (isFinite_of_isProbability h.crossoverProbability)
  · exact .float (isFinite_of_isProbability h.mutationProbability)
  · exact .text (List.all_eq_true.mp (by cases s.initMethod <;> decide))
  · exact .boolean s.verbose

end Settings

/-- An environment without variables for the settings changes nothing. -/
lemma Environment.override_of_not_prefix {environment : List (String × String)}
    (h : ∀ v ∈ environment, ¬ lead <+: lower v.1) (settings : Datum) :
    override environment settings = .ok settings := by
  induction environment with
  | nil => rfl
  | cons v environment ih =>
    obtain ⟨hv, henvironment⟩ := List.forall_mem_cons.mp h
    have hpath : path? v.1 = none := if_neg (by rwa [List.isPrefixOf_iff_prefix])
    rw [override, List.foldlM_cons]
    simp only [hpath]
    exact ih henvironment

namespace Store

/-- What is written of settings is read as their entries. -/
lemma sections?_of_write {s : Settings} (hvalid : s.Valid) {text : String}
    (h : s.write = .ok text) :
    sections? text = some [(Settings.sectionName, .table s.entries)] := by
  obtain ⟨lines, hlines, h⟩ := bind_eq_ok.mp h
  cases h
  exact Document.read_file Document.isBare_sectionName
    (fun entry hentry => Document.isBare_of_mem_keys (Settings.mem_keys_of_mem_entries hentry))
    (Settings.nodup_entries s) (Settings.readable_entries hvalid) hlines

/-- The entries of settings are collected as they are. -/
lemma collect_entries {s : Settings} (hvalid : s.Valid) {environment : List (String × String)}
    (henvironment : ∀ v ∈ environment, ¬ Environment.lead <+: Environment.lower v.1) :
    collect [(Settings.sectionName, .table s.entries)] environment =
      .ok (.table [(Settings.sectionName, .table s.entries)]) := by
  rw [collect_section (by decide) (Settings.nodup_entries s) fun entry hentry =>
    (Settings.readable_entries hvalid entry hentry).merge]
  exact Environment.override_of_not_prefix henvironment _

/-- **Saving and loading.**  What is saved after any requests can be loaded, provided that no
variable of the environment is about settings, and then any store, whatever it has held, holds
exactly the settings that were saved. -/
theorem saved_settings_are_loaded (requests : List Request) {accessible : Bool} {text : String}
    (h : (after requests).save accessible = .ok text) (other : Store)
    {environment : List (String × String)}
    (henvironment : ∀ v ∈ environment, ¬ Environment.lead <+: Environment.lower v.1) :
    other.load (some text) environment = .ok (after requests) := by
  have hvalid := valid_after requests
  have hwrite : (after requests).settings.write = .ok text := by
    obtain ⟨written, hwritten, h⟩ := bind_eq_ok.mp h
    cases accessible with
    | false => cases h
    | true =>
      cases h
      exact hwritten
  exact load_eq_ok.mpr (read_eq_ok.mpr ⟨_, _, sections?_of_write hvalid hwrite,
    collect_entries hvalid henvironment, Settings.setAll?_entries _, hvalid⟩)

/-- Settings with a seed and a limit are saved, and loaded into a store with other settings. -/
theorem limited_settings_are_loaded :
    ∃ text, (after [.update fun s => { s with seed := some 7, sizeLimit := some 60 }]).save true =
        .ok text ∧
      load ⟨{ depthLimit := some 3, verbose := true }⟩ (some text) [("HOME", "/root")] =
        .ok ⟨{ seed := some 7, sizeLimit := some 60 }⟩ := by
  have hvalid : Settings.Valid { seed := some 7, sizeLimit := some 60 } :=
    Settings.validate_eq_ok_iff.mp rfl
  have hafter : after [.update fun s => { s with seed := some 7, sizeLimit := some 60 }] =
      ⟨{ seed := some 7, sizeLimit := some 60 }⟩ := by
    rw [after, List.foldl_cons, List.foldl_nil, Request.perform, Request.attempt_update hvalid]
  obtain ⟨text, htext⟩ :
      ∃ text, (after [.update fun s => { s with seed := some 7, sizeLimit := some 60 }]).save true =
        .ok text := by
    rw [hafter, save_true]
    exact Settings.exists_write (by decide)
  have hload : load ⟨{ depthLimit := some 3, verbose := true }⟩ (some text) [("HOME", "/root")] =
      .ok (after [.update fun s => { s with seed := some 7, sizeLimit := some 60 }]) :=
    saved_settings_are_loaded _ htext _ (by decide)
  rw [hafter] at hload
  exact ⟨text, htext, hload⟩

end Store

end TreeEvolution
