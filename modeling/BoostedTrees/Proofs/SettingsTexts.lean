import BoostedTrees.Proofs.Calls
import BoostedTrees.Proofs.ConfigText

/-!
# Settings and the texts they were given as

Settings are what the last text of every name says, or what they were at first where no
text was given. Whether a text is accepted does not depend on the settings before it. So
the texts of settings, given again to settings without any, are all accepted and give the
same settings.

## Main definitions

* `Settings.ofTexts`: the settings that texts and metrics stand for
* `Settings.Settled`: settings stand for their texts, which are all accepted

## Main results

* `Settings.Settled.set`: whatever is set, settings stay settled
* `Settings.loadConfig_config`: what a configuration makes of settings that are there
* `Settings.loadConfig_config_initial`, `Settings.loadConfig_config_self`: settled settings
  are read back from their configuration, and do not change when they are given it
-/

namespace BoostedTrees

namespace Settings

/-! ## What texts stand for -/

/-- What the text that is kept under a name says, or the given value if there is none. -/
def valueOf {α : Type} (read : (key value : String) → Except EngineError α)
    (given : Dictionary String) (name : String) (initially : α) : α :=
  match given.get? name with
  | none => initially
  | some text => (read name text).toOption.getD initially

/-- An objective by its name, whatever the name of the setting. -/
def readObjective (_key value : String) : Except EngineError Objective := Objective.ofName value

/-- The settings that texts and metrics stand for. -/
def ofTexts (given : Dictionary String) (metrics : List Metric) : Settings where
  learningRate := valueOf readSize given "eta" initial.learningRate
  maxDepth := valueOf readWord given "max_depth" initial.maxDepth
  lambda := valueOf readSize given "lambda" initial.lambda
  gamma := valueOf readSize given "gamma" initial.gamma
  minChildWeight := valueOf readSize given "min_child_weight" initial.minChildWeight
  subsample := valueOf (readBetween Single.epsilon 1) given "subsample" initial.subsample
  seed := valueOf readSeed given "seed" initial.seed
  baseScore := valueOf (readValue Single.ofText?) given "base_score" initial.baseScore
  numClass := valueOf readWord given "num_class" initial.numClass
  objective := valueOf readObjective given "objective" initial.objective
  threads := valueOf readThreads given "nthread" initial.threads
  verbosity := valueOf readWord given "verbosity" initial.verbosity
  validateParameters :=
    valueOf (readValue boolOfText?) given "validate_parameters" initial.validateParameters
  metrics
  given

/-- What a text is read as does not depend on the name that it is read under. -/
class Nameless {α : Type} (read : (key value : String) → Except EngineError α) : Prop where
  ok_of_ok : ∀ {key value a}, read key value = .ok a → ∀ name, read name value = .ok a

instance nameless_readValue {α : Type} (read? : List Char → Option α) :
    Nameless (readValue read?) := by
  constructor
  intro key value a h name
  unfold readValue at h ⊢
  split at h
  · exact h
  · cases h

instance nameless_readBetween (least greatest : Single) :
    Nameless (readBetween least greatest) := by
  constructor
  intro key value a h name
  unfold readBetween at h ⊢
  obtain ⟨x, hx, h⟩ := Except.bind_eq_ok h
  rw [Nameless.ok_of_ok hx name]
  change (if _ then _ else _) = _
  split at h
  · next hbounds => rw [if_pos hbounds]; exact h
  · cases h

instance nameless_readSize : Nameless readSize := nameless_readBetween _ _

instance nameless_readWord : Nameless readWord := nameless_readValue _

instance nameless_readSeed : Nameless readSeed := nameless_readValue _

instance nameless_readThreads : Nameless readThreads := nameless_readValue _

instance nameless_readObjective : Nameless readObjective := ⟨fun h _ => h⟩

section ValueOf

variable {α : Type} {read : (key value : String) → Except EngineError α} {given : Dictionary String}
  {name name' text : String} {initially : α}

theorem valueOf_insert_self [Nameless read] (key : String) {a : α} (h : read key text = .ok a) :
    valueOf read (given.insert name text) name initially = a := by
  rw [valueOf, Dictionary.get?_insert, if_pos rfl]
  simp only [Nameless.ok_of_ok h name]
  rfl

theorem valueOf_insert_of_ne (h : name' ≠ name) :
    valueOf read (given.insert name text) name' initially =
      valueOf read given name' initially := by
  rw [valueOf, Dictionary.get?_insert, if_neg h]
  rfl

end ValueOf

/-- With one more text the value of its name is what that text says. -/
theorem assign_ofTexts {given : Dictionary String} {metrics : List Metric} {key value : String}
    {s : Settings} (h : (ofTexts given metrics).assign key value = .ok s) :
    { s with given := given.insert (keptName key) value } =
      ofTexts (given.insert (keptName key) value) metrics := by
  unfold assign at h
  generalize keptName key = name at h ⊢
  -- Every name with a meaning has its own field.
  split at h <;> first
    | obtain ⟨x, hx, heq⟩ := Except.bind_eq_ok h
      cases heq
      simp [ofTexts, valueOf_insert_self key hx, valueOf_insert_of_ne]
    | obtain ⟨x, hx, heq⟩ := Except.bind_eq_ok h
      cases heq
      have hx : readObjective key value = .ok x := hx
      simp [ofTexts, valueOf_insert_self key hx, valueOf_insert_of_ne]
    | cases h
      simp_all [ofTexts, valueOf_insert_of_ne, Ne.symm]

/-! ## Accepted texts -/

/-- A name that texts are kept under: it is given with them and stands for itself. -/
structure IsKept (name : String) : Prop where
  isEmpty : name.isEmpty = false
  any_isBlank : name.toList.any Text.isBlank = false
  ne_metricName : name ≠ metricName
  keptName : keptName name = name

/-- Names that have synonyms are kept, and so are those of what a stored model fixes. -/
theorem isKept_of_mem {name : String}
    (h : name ∈ ["eta", "lambda", "gamma", "objective", "num_class", "base_score"]) :
    IsKept name := by
  simp only [List.mem_cons, List.not_mem_nil, or_false] at h
  rcases h with rfl | rfl | rfl | rfl | rfl | rfl <;>
    exact ⟨by decide, by decide, by decide, rfl⟩

variable {s t : Settings} {key value : String}

/-- What setting does: nothing, asking for a metric, or assigning a text and keeping it. -/
theorem set_cases (h : s.set key value = .ok t) :
    t = s ∨ (∃ metric, t = s.addMetric metric) ∨
      IsKept (keptName key) ∧ ∃ u, s.assign key value = .ok u ∧
        t = { u with given := u.given.insert (Settings.keptName key) value } := by
  unfold set at h
  split at h
  · cases h
    exact .inl rfl
  split at h
  · cases h
  split at h
  · obtain ⟨metric, -, heq⟩ := Except.bind_eq_ok h
    cases heq
    exact .inr (.inl ⟨metric, rfl⟩)
  · next hempty hblank hmetric =>
    obtain ⟨u, hu, heq⟩ := Except.bind_eq_ok h
    cases heq
    refine .inr (.inr ⟨?_, u, hu, rfl⟩)
    unfold Settings.keptName
    split
    · exact isKept_of_mem (by simp)
    · exact isKept_of_mem (by simp)
    · exact isKept_of_mem (by simp)
    · next h1 h2 h3 =>
      -- Any other name stands for itself.
      refine ⟨by simpa using hempty, by simpa using hblank, hmetric, ?_⟩
      unfold Settings.keptName
      split
      · exact absurd rfl h1
      · exact absurd rfl h2
      · exact absurd rfl h3
      · rfl

/-- Assigning changes neither the texts nor the metrics. -/
theorem given_metrics_of_assign (h : s.assign key value = .ok t) :
    t.given = s.given ∧ t.metrics = s.metrics := by
  unfold assign at h
  split at h <;> first
    | obtain ⟨x, -, heq⟩ := Except.bind_eq_ok h
      cases heq
      exact ⟨rfl, rfl⟩
    | cases h
      exact ⟨rfl, rfl⟩

/-- A text that is accepted once is accepted by all settings, under synonyms too. -/
theorem exists_assign_of_assign (h : s.assign key value = .ok t) (s' : Settings) {key' : String}
    (hname : keptName key' = keptName key) : ∃ t', s'.assign key' value = .ok t' := by
  unfold assign at h ⊢
  rw [hname]
  split at h <;> first
    | obtain ⟨x, hx, -⟩ := Except.bind_eq_ok h
      rw [Nameless.ok_of_ok hx key']
      exact ⟨_, rfl⟩
    | obtain ⟨x, hx, -⟩ := Except.bind_eq_ok h
      rw [hx]
      exact ⟨_, rfl⟩
    | exact ⟨_, rfl⟩

theorem set_of_isKept (h : IsKept key) :
    s.set key value = (do
      let t ← s.assign key value
      return { t with given := t.given.insert key value }) := by
  rw [set, if_neg (by simp [h.isEmpty]), if_neg (by simp [h.any_isBlank]), if_neg h.ne_metricName,
    h.keptName]

/-- Settings stand for their texts, all of which are accepted under the names that they
are kept under. -/
structure Settled (s : Settings) : Prop where
  eq_ofTexts : s = ofTexts s.given s.metrics
  isKept : ∀ e ∈ s.given.entries, IsKept e.1
  accepted : ∀ e ∈ s.given.entries, ∃ t, initial.assign e.1 e.2 = .ok t
  nodup : s.metrics.Nodup

theorem settled_initial : initial.Settled where
  eq_ofTexts := rfl
  isKept := fun _ h => absurd h List.not_mem_nil
  accepted := fun _ h => absurd h List.not_mem_nil
  nodup := .nil

namespace Settled

theorem addMetric (h : s.Settled) (metric : Metric) : (s.addMetric metric).Settled := by
  unfold Settings.addMetric
  split
  · exact h
  · next hnew =>
    refine ⟨?_, h.isKept, h.accepted, ?_⟩
    · have heq := h.eq_ofTexts
      generalize s.given = given at heq
      generalize s.metrics = metrics at heq
      subst heq
      rfl
    · refine List.nodup_append.mpr ⟨h.nodup, List.nodup_singleton metric, fun a ha b hb => ?_⟩
      rw [List.mem_singleton.mp hb]
      rintro rfl
      exact hnew ha

/-- Whatever is set, settings stay settled. -/
theorem set (h : s.Settled) (hset : s.set key value = .ok t) : t.Settled := by
  rcases set_cases hset with rfl | ⟨metric, rfl⟩ | ⟨hkept, u, hassign, rfl⟩
  · exact h
  · exact h.addMetric metric
  · obtain ⟨hgiven, hmetrics⟩ := given_metrics_of_assign hassign
    refine ⟨?_, ?_, ?_, ?_⟩
    · have hassign' : (ofTexts s.given s.metrics).assign key value = .ok u := by
        rw [← h.eq_ofTexts]
        exact hassign
      rw [hgiven]
      exact (assign_ofTexts hassign').trans (congrArg (ofTexts _) hmetrics.symm)
    · intro e he
      rw [hgiven] at he
      rcases Dictionary.mem_place he with rfl | he
      · exact hkept
      · exact h.isKept e he
    · intro e he
      rw [hgiven] at he
      rcases Dictionary.mem_place he with rfl | he
      · exact exists_assign_of_assign hassign initial hkept.keptName
      · exact h.accepted e he
    · rw [hmetrics]
      exact h.nodup

theorem setAll (h : s.Settled) {pairs : List (String × String)}
    (hset : s.setAll pairs = .ok t) : t.Settled := by
  induction pairs generalizing s with
  | nil =>
    cases hset
    exact h
  | cons pair rest ih =>
    obtain ⟨u, hu, hrest⟩ := Except.bind_eq_ok hset
    exact ih (h.set hu) hrest

end Settled

/-! ## Giving the texts again -/

theorem setAll_append (s : Settings) (first second : List (String × String)) :
    s.setAll (first ++ second) = (s.setAll first >>= fun t => t.setAll second) := by
  induction first generalizing s with
  | nil => rfl
  | cons pair rest ih =>
    rw [List.cons_append, Settings.setAll, Settings.setAll]
    cases s.set pair.1 pair.2 with
    | error e => rfl
    | ok t => exact ih t

/-- Accepted texts are all kept, whatever they are given to. -/
theorem setAll_texts {entries : List (String × String)} (hkept : ∀ e ∈ entries, IsKept e.1)
    (haccepted : ∀ e ∈ entries, ∃ t, initial.assign e.1 e.2 = .ok t) (s : Settings) :
    ∃ t, s.setAll entries = .ok t ∧
      t.given = entries.foldl (fun d e => d.insert e.1 e.2) s.given ∧ t.metrics = s.metrics := by
  induction entries generalizing s with
  | nil => exact ⟨s, rfl, rfl, rfl⟩
  | cons e entries ih =>
    obtain ⟨u, hu⟩ := haccepted e List.mem_cons_self
    obtain ⟨u, hu⟩ := exists_assign_of_assign hu s rfl
    obtain ⟨hgiven, hmetrics⟩ := given_metrics_of_assign hu
    obtain ⟨t, ht, htgiven, htmetrics⟩ := ih (fun e he => hkept e (List.mem_cons_of_mem _ he))
      (fun e he => haccepted e (List.mem_cons_of_mem _ he))
      { u with given := u.given.insert e.1 e.2 }
    refine ⟨t, ?_, ?_, htmetrics.trans hmetrics⟩
    · rw [Settings.setAll, set_of_isKept (hkept e List.mem_cons_self), hu]
      exact ht
    · rw [htgiven, hgiven]
      rfl

/-- Metrics are added in order, those aside that are asked for already. -/
theorem setAll_metrics {metrics : List Metric} (h : metrics.Nodup) (s : Settings) :
    s.setAll (metrics.map fun m => (metricName, m.name)) =
      .ok { s with metrics := s.metrics ++ metrics.filter (· ∉ s.metrics) } := by
  induction metrics generalizing s with
  | nil => simp [Settings.setAll]
  | cons m metrics ih =>
    obtain ⟨hm, hmetrics⟩ := List.nodup_cons.mp h
    have hset : s.set metricName m.name = .ok (s.addMetric m) := by
      rw [set, if_neg (by decide), if_neg (by decide), if_pos rfl, Metric.ofName_name]
      rfl
    rw [List.map_cons, Settings.setAll, hset]
    refine (ih hmetrics (s.addMetric m)).trans ?_
    by_cases hold : m ∈ s.metrics
    · rw [Settings.addMetric, if_pos hold, List.filter_cons_of_neg (by simpa using hold)]
    · -- The metrics that follow are others, so it does not matter to them that this one is new.
      have hrest : metrics.filter (· ∉ s.metrics ++ [m]) = metrics.filter (· ∉ s.metrics) := by
        refine List.filter_congr fun a ha => ?_
        have hne : a ≠ m := ne_of_mem_of_not_mem ha hm
        simp [hne]
      rw [Settings.addMetric, if_neg hold, List.filter_cons_of_pos (by simpa using hold), hrest,
        List.append_assoc]
      rfl

/-- What the configuration of settled settings makes of others: its texts take the place of
those that were given under the same names, and metrics that are not asked for yet are
added in order. -/
theorem loadConfig_config {base : Settings} (hbase : base.Settled) (h : s.Settled) :
    base.loadConfig s.config =
      .ok (ofTexts (s.given.entries.foldl (fun d e => d.insert e.1 e.2) base.given)
        (base.metrics ++ s.metrics.filter (· ∉ base.metrics))) := by
  obtain ⟨t, ht, hgiven, hmetrics⟩ := setAll_texts h.isKept h.accepted base
  have hmap : ((Config.ofSettings s).metrics.map fun m => (metricName, m)) =
      s.metrics.map fun m => (metricName, m.name) := by
    simp [Config.ofSettings]
  have hall : base.setAll (Config.ofSettings s).pairs =
      .ok { t with metrics := base.metrics ++ s.metrics.filter (· ∉ base.metrics) } := by
    rw [Config.pairs, setAll_append, hmap, ← hmetrics, ← setAll_metrics h.nodup t]
    exact congrArg (· >>= _) ht
  -- What was set again is settled too, so it is what its texts stand for.
  have heq := (hbase.setAll hall).eq_ofTexts
  rw [loadConfig, config, Config.ofText?_toJson]
  exact hall.trans (congrArg Except.ok (heq.trans (congrArg (ofTexts · _) hgiven)))

/-- Settled settings are read back from their configuration. -/
theorem loadConfig_config_initial (h : s.Settled) : initial.loadConfig s.config = .ok s := by
  have hgiven : s.given.entries.foldl (fun d e => d.insert e.1 e.2) initial.given = s.given :=
    s.given.ofList_entries
  have hnew : s.metrics.filter (· ∉ initial.metrics) = s.metrics := by simp [initial]
  rw [loadConfig_config settled_initial h, hgiven, hnew]
  exact congrArg Except.ok h.eq_ofTexts.symm

/-- Settled settings do not change when they are given their own configuration. -/
theorem loadConfig_config_self (h : s.Settled) : s.loadConfig s.config = .ok s := by
  have hnew : s.metrics.filter (· ∉ s.metrics) = [] := by simp
  rw [loadConfig_config h h, s.given.foldl_insert_entries, hnew, List.append_nil]
  exact congrArg Except.ok h.eq_ofTexts.symm

end Settings

end BoostedTrees
