import TreeEvolution.Proofs.Document.Lines
import TreeEvolution.Proofs.Settings.Decoding
import TreeEvolution.Proofs.Store.Requests

/-!
# Layers of settings

Settings that are loaded come from three layers.  What the variables of the environment say about a
setting goes over what the file says, and what the file says goes over the default settings
(`Layered`).  The last variable about a setting decides, and the others do not matter to it as long
as they spare it: they are about other settings, or about other data.

The store has no part in the settings that are loaded, so earlier requests do not matter.
-/

namespace TreeEvolution

open Datum

/-! ### Data for settings -/

namespace Settings

variable {s : Settings} {key : String} {d new all whole : Datum} {path : List PathStep}

/-- The data that settings are read from, under their keys. -/
def given : Datum → List (String × Datum)
  | .table entries => entries
  | .list items => keys.zip items
  | _ => []

/-- The portion of some data that is for the settings. -/
def portion? (all : Datum) : Option Datum :=
  lookup sectionName all.entries

/-- What some data has for a setting. -/
def given? (key : String) (all : Datum) : Option Datum :=
  (portion? all).bind fun d => lookup key (given d)

/-- The data for the settings has distinct keys. -/
def Distinct (all : Datum) : Prop :=
  ∀ d, portion? all = some d → (d.entries.map Prod.fst).Nodup

/-- The settings that data gives are set one after the other. -/
lemma setAll?_given (h : ofDatum? d = some s) : setAll? {} (given d) = some s := by
  cases d with
  | table entries => exact h
  | list items => exact h
  | _ => cases h

/-- Items that are given in order are given under keys in order. -/
lemma map_fst_zip_sublist (names : List String) (items : List Datum) :
    ((names.zip items).map Prod.fst).Sublist names := by
  induction names generalizing items with
  | nil => exact List.Sublist.refl []
  | cons name names ih =>
    cases items with
    | nil => exact List.nil_sublist _
    | cons item items => exact (ih items).cons_cons name

/-- Data with distinct keys has one datum at most for each setting. -/
lemma nodup_given (h : (d.entries.map Prod.fst).Nodup) : ((given d).map Prod.fst).Nodup := by
  cases d with
  | table entries => exact h
  | list items => exact (map_fst_zip_sublist keys items).nodup (by decide)
  | _ => exact List.nodup_nil

/-- A setting that is given is the one that its datum gives. -/
lemma has_of_given? (hdistinct : Distinct all) (h : ofSections? all = some s) (hkey : key ∈ keys)
    (hd : given? key all = some d) : s.Has key d := by
  obtain ⟨below, hbelow, hd⟩ := Option.bind_eq_some_iff.mp hd
  have hsection : lookup sectionName all.entries = some below := hbelow
  rw [ofSections?, hsection] at h
  exact has_of_setAll? (nodup_given (hdistinct below hbelow)) (setAll?_given h) hkey hd

/-- A setting that is not given is the default one. -/
lemma datum_of_given? (h : ofSections? all = some s) (hkey : key ∈ keys)
    (hnone : given? key all = none) : s.datum key = ({} : Settings).datum key := by
  rw [ofSections?] at h
  rw [given?, portion?] at hnone
  rcases hbelow : lookup sectionName all.entries with _ | below
  · rw [hbelow] at h
    cases h
    rfl
  · rw [hbelow] at h hnone
    exact datum_of_setAll? (setAll?_given h) hkey (not_mem_of_lookup hnone)

/-! ### Data that is merged -/

/-- The portion after a change elsewhere is the one that there was. -/
lemma portion?_of_ne {name : String} (h : name ≠ sectionName) (change : Datum → Datum)
    (path : List PathStep) (whole : Datum) :
    portion? (modifyAt change (.key name :: path) whole) = portion? whole := by
  rw [portion?, modifyAt]
  exact lookup_put_of_ne h.symm _ _

/-- The portion after a change within it is the changed one. -/
lemma portion?_modifyAt (change : Datum → Datum) (path : List PathStep) (whole : Datum) :
    portion? (modifyAt change (.key sectionName :: path) whole) =
      some (modifyAt change path ((portion? whole).getD nothing)) := by
  rw [portion?, modifyAt]
  exact lookup_put_self _ _ _

/-- Merging keeps the keys of data distinct. -/
lemma nodup_modifyAt (new : Datum) (path : List PathStep) (h : (d.entries.map Prod.fst).Nodup) :
    ((modifyAt (merge new) path d).entries.map Prod.fst).Nodup := by
  cases path with
  | nil => exact nodup_merge new h
  | cons step path =>
    cases step with
    | key name => exact nodup_put _ h
    | item position => exact List.nodup_nil

/-- Merging keeps the keys of the settings distinct. -/
lemma Distinct.modifyAt (h : Distinct whole) (new : Datum) {name : String}
    (path : List PathStep) : Distinct (modifyAt (merge new) (.key name :: path) whole) := by
  intro d hd
  by_cases hname : name = sectionName
  · subst hname
    rw [portion?_modifyAt] at hd
    cases hd
    refine nodup_modifyAt new path ?_
    rcases hsection : portion? whole with _ | below
    · exact List.nodup_nil
    · exact h below hsection
  · rw [portion?_of_ne hname] at hd
    exact h d hd

/-- A path is not about a setting: it leads to other data, or to another setting. -/
def Spares (key : String) : List PathStep → Prop
  | .key name :: path =>
    name = sectionName → ∃ other further, path = .key other :: further ∧ other ≠ key
  | _ => False

/-- The data for settings is no list. -/
def NoList (all : Datum) : Prop :=
  ∀ items, portion? all ≠ some (.list items)

/-- A path that spares a setting leaves what there is for it. -/
lemma given?_modifyAt_of_spares (change : Datum → Datum) (hspares : Spares key path)
    (hlist : NoList whole) :
    given? key (modifyAt change path whole) = given? key whole ∧
      NoList (modifyAt change path whole) := by
  rcases path with _ | ⟨name | position, path⟩
  · cases hspares
  · by_cases hname : name = sectionName
    · obtain ⟨other, further, rfl, hother⟩ := hspares hname
      subst hname
      rw [given?, NoList, portion?_modifyAt]
      refine ⟨?_, fun items => nofun⟩
      rw [Option.bind_some, given?]
      change lookup key (put other _ _) = _
      rw [lookup_put_of_ne hother.symm]
      rcases hsection : portion? whole with _ | below
      · rfl
      · cases below with
        | list items => exact absurd hsection (hlist items)
        | _ => rfl
    · rw [given?, NoList, portion?_of_ne hname]
      exact ⟨rfl, hlist⟩
  · cases hspares

/-- What is put under the key of a setting is there for it. -/
lemma given?_modifyAt (hnew : ∀ d, merge new d = new) (key : String) (whole : Datum) :
    given? key (modifyAt (merge new) [.key sectionName, .key key] whole) = some new ∧
      NoList (modifyAt (merge new) [.key sectionName, .key key] whole) := by
  rw [given?, NoList, portion?_modifyAt]
  refine ⟨?_, fun items => nofun⟩
  rw [Option.bind_some]
  change lookup key (put key (merge new _) _) = some new
  rw [hnew, lookup_put_self]

end Settings

/-! ### Variables -/

/-- A path in writing begins with a key. -/
lemma PathStep.path_eq_cons (text : String) :
    ∃ name further, PathStep.path text = .key name :: further := by
  simp only [PathStep.path]
  split
  · split
    · exact ⟨_, _, rfl⟩
    · exact ⟨_, _, rfl⟩
  · exact ⟨_, _, rfl⟩

/-- Data is merged where the path leads. -/
lemma Datum.mergeAt_eq_ok {path : List PathStep} {d whole all : Datum}
    (h : mergeAt path d whole = .ok all) : all = modifyAt (merge d) path whole := by
  rw [mergeAt] at h
  split at h <;> cases h
  rfl

namespace Environment

variable {key name value : String} {environment before later : List (String × String)}
  {base all : Datum}

/-- The value of a variable takes the place of what is there. -/
lemma merge_datum (value : String) (d : Datum) : merge (datum value) d = datum value := by
  unfold datum
  split
  · rfl
  · split
    · rfl
    · split <;> rfl

/-- The path of a variable begins with a key. -/
lemma path?_eq_cons {path : List PathStep} (h : path? name = some path) :
    ∃ first further, path = .key first :: further := by
  rw [path?] at h
  split at h
  · rw [← Option.some.inj h]
    exact PathStep.path_eq_cons _
  · cases h

/-- What the first of some variables does. -/
lemma override_cons {v : String × String}
    (h : override (v :: environment) base = .ok all) :
    (path? v.1 = none ∧ override environment base = .ok all) ∨
      ∃ path, path? v.1 = some path ∧
        override environment (modifyAt (merge (datum v.2)) path base) = .ok all := by
  rw [override, List.foldlM_cons] at h
  obtain ⟨between, hbetween, h⟩ := bind_eq_ok.mp h
  rcases hpath : path? v.1 with _ | path
  · simp only [hpath] at hbetween
    cases hbetween
    exact .inl ⟨rfl, h⟩
  · simp only [hpath] at hbetween
    rw [mergeAt_eq_ok hbetween] at h
    exact .inr ⟨path, rfl, h⟩

/-- What the first variables do comes before what the other ones do. -/
lemma override_append (h : override (before ++ later) base = .ok all) :
    ∃ between, override before base = .ok between ∧ override later between = .ok all := by
  rw [override, List.foldlM_append] at h
  exact bind_eq_ok.mp h

/-- A variable is not about a setting. -/
def Spares (key : String) (v : String × String) : Prop :=
  ∀ path, path? v.1 = some path → Settings.Spares key path

/-- A variable is not about the settings of an evolution at all. -/
def Elsewhere (v : String × String) : Prop :=
  ∀ name further, path? v.1 = some (.key name :: further) → name ≠ Settings.sectionName

/-- Variables keep the keys of the settings distinct. -/
lemma distinct_override (hbase : Settings.Distinct base)
    (h : override environment base = .ok all) : Settings.Distinct all := by
  induction environment generalizing base with
  | nil =>
    cases h
    exact hbase
  | cons v environment ih =>
    rcases override_cons h with ⟨-, h⟩ | ⟨path, hpath, h⟩
    · exact ih hbase h
    · obtain ⟨first, further, rfl⟩ := path?_eq_cons hpath
      exact ih (hbase.modifyAt (datum v.2) further) h

/-- Variables that are not about a setting leave what there is for it. -/
lemma given?_override (hspares : ∀ v ∈ environment, Spares key v)
    (hlist : Settings.NoList base) (h : override environment base = .ok all) :
    Settings.given? key all = Settings.given? key base := by
  induction environment generalizing base with
  | nil =>
    cases h
    rfl
  | cons v environment ih =>
    obtain ⟨hv, hspares⟩ := List.forall_mem_cons.mp hspares
    rcases override_cons h with ⟨-, h⟩ | ⟨path, hpath, h⟩
    · exact ih hspares hlist h
    · obtain ⟨hgiven, hlist⟩ := Settings.given?_modifyAt_of_spares (merge (datum v.2))
        (hv path hpath) hlist
      rw [ih hspares hlist h, hgiven]

/-- Variables that are not about the settings leave them. -/
lemma portion?_override (helsewhere : ∀ v ∈ environment, Elsewhere v)
    (h : override environment base = .ok all) :
    Settings.portion? all = Settings.portion? base := by
  induction environment generalizing base with
  | nil =>
    cases h
    rfl
  | cons v environment ih =>
    obtain ⟨hv, helsewhere⟩ := List.forall_mem_cons.mp helsewhere
    rcases override_cons h with ⟨-, h⟩ | ⟨path, hpath, h⟩
    · exact ih helsewhere h
    · obtain ⟨first, further, rfl⟩ := path?_eq_cons hpath
      rw [ih helsewhere h, Settings.portion?_of_ne (hv first further hpath)]

/-- Variables leave what a file has for a setting: they are not about the setting, or, where the
file gives the settings as a list, not about any of them. -/
def Leaves (key : String) (base : Datum) (environment : List (String × String)) : Prop :=
  (Settings.NoList base ∧ ∀ v ∈ environment, Spares key v) ∨ ∀ v ∈ environment, Elsewhere v

lemma Leaves.given? (hleaves : Leaves key base environment)
    (h : override environment base = .ok all) :
    Settings.given? key all = Settings.given? key base := by
  rcases hleaves with ⟨hlist, hspares⟩ | helsewhere
  · exact given?_override hspares hlist h
  · rw [Settings.given?, portion?_override helsewhere h, Settings.given?]

/-- The last variable about a setting is what there is for it. -/
lemma given?_override_of_last (hpath : path? name = some [.key Settings.sectionName, .key key])
    (hlater : ∀ v ∈ later, Spares key v)
    (h : override (before ++ (name, value) :: later) base = .ok all) :
    Settings.given? key all = some (datum value) := by
  obtain ⟨between, -, h⟩ := override_append h
  rcases override_cons h with ⟨hnone, -⟩ | ⟨path, hsome, h⟩
  · rw [hpath] at hnone
    cases hnone
  · rw [hpath] at hsome
    cases hsome
    obtain ⟨hgiven, hlist⟩ := Settings.given?_modifyAt (merge_datum value) key between
    rw [given?_override hlater hlist h, hgiven]

end Environment

/-! ### The layers -/

namespace Store

/-- The layers of a setting: the variables of an environment, the data of a file, and the default
settings. -/
structure Layered (key : String) (base : Datum) (environment : List (String × String))
    (s : Settings) : Prop where
  /-- The setting is what the last variable about it says. -/
  ofVariable : ∀ before name value later, environment = before ++ (name, value) :: later →
    Environment.path? name = some [.key Settings.sectionName, .key key] →
    (∀ v ∈ later, Environment.Spares key v) → s.Has key (Environment.datum value)
  /-- Without a variable, it is what the file says. -/
  ofFile : Environment.Leaves key base environment → ∀ d, Settings.given? key base = some d →
    s.Has key d
  /-- Without either, it is the default one. -/
  ofDefault : Environment.Leaves key base environment → Settings.given? key base = none →
    s.datum key = ({} : Settings).datum key

/-- All data is that of the file, changed by the variables. -/
lemma collect_eq_ok {sections : List (String × Datum)} {environment : List (String × String)}
    {all : Datum} (h : collect sections environment = .ok all) :
    ∃ base, collect sections [] = .ok base ∧ Environment.override environment base = .ok all := by
  obtain ⟨base, hbase, h⟩ := bind_eq_ok.mp h
  exact ⟨base, bind_eq_ok.mpr ⟨base, hbase, rfl⟩, h⟩

/-- Merging the sections of a file keeps keys distinct. -/
lemma distinct_foldlM {sections : List (String × Datum)} {whole base : Datum}
    (hwhole : Settings.Distinct whole)
    (h : sections.foldlM (fun whole (key, d) => mergeAt (PathStep.path key) d whole) whole =
      .ok base) : Settings.Distinct base := by
  induction sections generalizing whole with
  | nil =>
    cases h
    exact hwhole
  | cons entry sections ih =>
    obtain ⟨between, hbetween, h⟩ := bind_eq_ok.mp h
    obtain ⟨name, further, hpath⟩ := PathStep.path_eq_cons entry.1
    refine ih ?_ h
    rw [mergeAt_eq_ok hbetween, hpath]
    exact hwhole.modifyAt entry.2 further

/-- The data of a file has distinct keys. -/
lemma distinct_collect {sections : List (String × Datum)} {base : Datum}
    (h : collect sections [] = .ok base) : Settings.Distinct base := by
  obtain ⟨base, hbase, h⟩ := bind_eq_ok.mp h
  cases h
  refine distinct_foldlM (fun d hd => ?_) hbase
  cases hd

/-- Settings that are read come from the layers. -/
lemma layered_of_read {file : Option String} {environment : List (String × String)} {s : Settings}
    (h : read file environment = .ok s) :
    ∃ sections base, file.bind sections? = some sections ∧ collect sections [] = .ok base ∧
      ∀ key ∈ Settings.keys, Layered key base environment s := by
  obtain ⟨sections, all, hsections, hall, hs, -⟩ := read_eq_ok.mp h
  obtain ⟨base, hbase, hoverride⟩ := collect_eq_ok hall
  have hdistinct := Environment.distinct_override (distinct_collect hbase) hoverride
  refine ⟨sections, base, hsections, hbase, fun key hkey => ⟨?_, ?_, ?_⟩⟩
  · rintro before name value later rfl hpath hlater
    exact Settings.has_of_given? hdistinct hs hkey
      (Environment.given?_override_of_last hpath hlater hoverride)
  · intro hleaves d hd
    exact Settings.has_of_given? hdistinct hs hkey (by rw [hleaves.given? hoverride, hd])
  · intro hleaves hnone
    exact Settings.datum_of_given? hs hkey (by rw [hleaves.given? hoverride, hnone])

/-- **Stores hold valid settings.**  After any requests, of which some may have failed, the settings
of a store are accepted: their probabilities are numbers between zero and one, and there is a height
for initial trees and one for the trees of mutation.  A request that fails is without effect.  What
is loaded does not depend on the store, and so not on earlier requests: each setting is what the
environment says, or else what the file says, or else the default one. -/
theorem requests_keep_settings_valid (requests : List Request) :
    (after requests).settings.validate = .ok () ∧
      (∀ p ∈ [(after requests).settings.crossoverProbability,
          (after requests).settings.mutationProbability, (after requests).settings.targetFitness],
        p.isNaN = false ∧ 0 ≤ p ∧ p ≤ 1) ∧
      (after requests).settings.initMinDepth ≤ (after requests).settings.initMaxDepth ∧
      (after requests).settings.mutationMinDepth ≤ (after requests).settings.mutationMaxDepth ∧
      (∀ r e, r.attempt (after requests) = .error e →
        after (requests ++ [r]) = after requests) ∧
      ∀ file environment loaded, (after requests).load file environment = .ok loaded →
        after (requests ++ [.load file environment]) = loaded ∧
          (∀ other : Store, other.load file environment = .ok loaded) ∧
          ∃ sections base, file.bind sections? = some sections ∧
            collect sections [] = .ok base ∧
            ∀ key ∈ Settings.keys, Layered key base environment loaded.settings := by
  have hvalid := valid_after requests
  have hprobability {p : Float} (h : Settings.isProbability p = true) :
      p.isNaN = false ∧ 0 ≤ p ∧ p ≤ 1 := by
    rw [Settings.isProbability, Bool.and_eq_true, decide_eq_true_iff, decide_eq_true_iff] at h
    exact ⟨(Number.isNaN_eq_false_of_le h.2).1, h.1, h.2⟩
  refine ⟨Settings.validate_eq_ok_iff.mpr hvalid, ?_, hvalid.initDepth, hvalid.mutationDepth,
    ?_, ?_⟩
  · intro p hp
    simp only [List.mem_cons, List.not_mem_nil, or_false] at hp
    rcases hp with rfl | rfl | rfl
    · exact hprobability hvalid.crossoverProbability
    · exact hprobability hvalid.mutationProbability
    · exact hprobability hvalid.targetFitness
  · intro r e he
    rw [after_append, Request.perform, he]
  · intro file environment loaded hloaded
    have hread : read file environment = .ok loaded.settings := load_eq_ok.mp hloaded
    refine ⟨?_, fun other => load_eq_ok.mpr hread, layered_of_read hread⟩
    have hattempt : (Request.load file environment).attempt (after requests) = .ok loaded := hloaded
    rw [after_append, Request.perform, hattempt]

/-- A settings file about two of the settings. -/
def notVerboseFile : String :=
  "[evolution]\nthreads = 2\nverbose = false\n"

/-- What such a file says about the two settings. -/
def threadsAndVerbose (verbose : Bool) : List (String × Datum) :=
  [("threads", .integer 2), ("verbose", .boolean verbose)]

/-- The file is read as what it says. -/
lemma sections?_notVerboseFile :
    (some notVerboseFile).bind sections? =
      some [("evolution", .table (threadsAndVerbose false))] := by
  have hkeys : ∀ entry ∈ threadsAndVerbose false, entry.1 ∈ Settings.keys := by
    decide
  have hdata : ∀ entry ∈ threadsAndVerbose false, Document.Readable entry.2 :=
    List.forall_mem_cons.mpr ⟨.integer 2, List.forall_mem_singleton.mpr (.boolean false)⟩
  have hlines : Settings.writeEntries (threadsAndVerbose false) =
      .ok "threads = 2\nverbose = false\n" := rfl
  have hfile : notVerboseFile =
      "[" ++ Settings.sectionName ++ "]\n" ++ "threads = 2\nverbose = false\n" := by
    decide
  rw [Option.bind_some, sections?, hfile]
  exact Document.read_file Document.isBare_sectionName
    (fun entry hentry => Document.isBare_of_mem_keys (hkeys entry hentry)) (by decide) hdata hlines

/-- The data of the file is what it says. -/
lemma collect_notVerboseFile (environment : List (String × String)) :
    collect [("evolution", .table (threadsAndVerbose false))] environment =
      Environment.override environment (.table [("evolution", .table (threadsAndVerbose false))]) :=
  collect_section (by decide) (by decide)
    (List.forall_mem_cons.mpr ⟨fun _ => rfl, List.forall_mem_singleton.mpr fun _ => rfl⟩) _

/-- Settings without individuals are refused.  Of a file that is loaded after a change, the
environment overrides one setting, the other one is taken over, and nothing of the change
remains. -/
theorem notVerboseFile_in_verbose_environment :
    after [.update fun s => { s with populationSize := 0 }] = {} ∧
      ∃ loaded, after ([.update fun s => { s with maxGenerations := 3 }] ++
          [.load (some notVerboseFile) [("TREEGP_EVOLUTION__VERBOSE", "true")]]) = loaded ∧
        loaded.settings.Has "verbose" (.boolean true) ∧
        loaded.settings.Has "threads" (.integer 2) ∧
        loaded.settings.datum "max_generations" = ({} : Settings).datum "max_generations" := by
  obtain ⟨-, -, -, -, hrefused, -⟩ := requests_keep_settings_valid []
  refine ⟨hrefused _ (.error (.configuration .populationTooSmall)) rfl, ?_⟩
  obtain ⟨-, -, -, -, -, hloads⟩ :=
    requests_keep_settings_valid [.update fun s => { s with maxGenerations := 3 }]
  have hpath : Environment.path? "TREEGP_EVOLUTION__VERBOSE" =
      some [.key "evolution", .key "verbose"] := by
    decide
  have htrue : Environment.datum "true" = .boolean true := rfl
  have hall : collect [("evolution", .table (threadsAndVerbose false))]
        [("TREEGP_EVOLUTION__VERBOSE", "true")] =
      .ok (.table [("evolution", .table (threadsAndVerbose true))]) := by
    rw [collect_notVerboseFile, Environment.override]
    simp only [List.foldlM_cons, hpath, htrue]
    rfl
  have hread : read (some notVerboseFile) [("TREEGP_EVOLUTION__VERBOSE", "true")] =
      .ok { threads := 2, verbose := true } :=
    read_eq_ok.mpr ⟨_, _, sections?_notVerboseFile, hall, rfl, Settings.validate_eq_ok_iff.mp rfl⟩
  obtain ⟨hafter, -, sections, base, hsections, hbase, hlayered⟩ :=
    hloads _ _ ⟨{ threads := 2, verbose := true }⟩ (load_eq_ok.mpr hread)
  obtain rfl := Option.some.inj (sections?_notVerboseFile.symm.trans hsections)
  obtain rfl := Except.ok.inj ((collect_notVerboseFile []).symm.trans hbase)
  have hleaves {key : String} (hkey : "verbose" ≠ key) :
      Environment.Leaves key (.table [("evolution", .table (threadsAndVerbose false))])
        [("TREEGP_EVOLUTION__VERBOSE", "true")] := by
    refine .inl ⟨fun items => nofun, List.forall_mem_singleton.mpr fun path h => ?_⟩
    obtain rfl := Option.some.inj (hpath.symm.trans h)
    exact fun _ => ⟨"verbose", [], rfl, hkey⟩
  refine ⟨_, hafter, ?_, ?_, ?_⟩
  · rw [← htrue]
    exact (hlayered "verbose" (by decide)).ofVariable [] _ _ [] rfl hpath nofun
  · exact (hlayered "threads" (by decide)).ofFile (hleaves (by decide)) _ rfl
  · exact (hlayered "max_generations" (by decide)).ofDefault (hleaves (by decide)) rfl

end Store

end TreeEvolution
