import BoostedTrees.Proofs.CutText
import BoostedTrees.Proofs.Effects
import BoostedTrees.Proofs.LeaseOperations
import BoostedTrees.Proofs.NumberText
import BoostedTrees.Proofs.RememberedSums
import BoostedTrees.Proofs.TreeStorage

/-!
# What a report says, read back

An evaluation scores every matrix with every metric and shows the scores in one line of text,
each behind a tab and under the names of its matrix and metric. Reading the line back finds
the entries by the tabs and the values by the last colon of every entry. A colon in the name
of a matrix does no harm, for none follows the value, and neither does any other character
but the tab. A tab in a name cuts its entry in two: then there are more parts than scores, and
the values that are read, if they are read at all, are not those of the scores.

## Main definitions

* `Learner.scoreEach`: the scores that an evaluation reports
* `Report.table`: what a report shows, entry by entry

## Main results

* `Learner.evaluateEach_eq_scoreEach`: the entries of an evaluation show its scores
* `Report.parse_table`: a report without further tabs is read back
* `Lease.evaluateInto_of_evaluate`: what reading gives, with and without tabs in names
-/

namespace BoostedTrees

/-! ## Shown numbers -/

namespace Double

theorem exists_sixPlaces (n : Nat) : ∃ c whole fraction,
    sixPlaces n = c :: whole ++ '.' :: fraction ∧
      (∀ d ∈ c :: whole, d.isDigit) ∧ ∀ d ∈ fraction, d.isDigit := by
  cases hwhole : Nat.toDigits 10 (n / 1000000) with
  | nil => exact absurd hwhole Nat.toDigits_ne_nil
  | cons c whole =>
    refine ⟨c, whole, _, by rw [sixPlaces, hwhole], ?_, ?_⟩
    · exact hwhole ▸ Numeral.isDigit_of_mem_toDigits
    · intro d hd
      rcases List.mem_append.mp hd with hd | hd
      · exact Decimal.isDigit_of_mem_replicate d hd
      · exact Numeral.isDigit_of_mem_toDigits d hd

/-- A value is shown by digits, a point and a sign, or by a word. -/
theorem mem_fixedChars (x : Double) :
    ∀ c ∈ x.fixedChars, c.isDigit ∨ c ∈ ['-', '.', 'i', 'n', 'f', 'a'] := by
  intro c hc
  rw [fixedChars] at hc
  split at hc
  · next m e _ =>
    rcases Numeral.mem_withSign hc with rfl | hc
    · exact .inr List.mem_cons_self
    · obtain ⟨d, whole, fraction, heq, hwhole, hfraction⟩ := exists_sixPlaces (millionths m e)
      rw [heq] at hc
      rcases List.mem_append.mp hc with hc | hc
      · exact .inl (hwhole c hc)
      · rcases List.mem_cons.mp hc with rfl | hc
        · exact .inr (by simp)
        · exact .inl (hfraction c hc)
  · have hword : ['i', 'n', 'f'] ⊆ ['-', '.', 'i', 'n', 'f', 'a'] := by simp
    rcases Numeral.mem_withSign hc with rfl | hc
    · exact .inr List.mem_cons_self
    · exact .inr (hword hc)
  · have hword : ['n', 'a', 'n'] ⊆ ['-', '.', 'i', 'n', 'f', 'a'] := by simp
    exact .inr (hword hc)

theorem isBlank_of_mem_fixedChars (x : Double) : ∀ c ∈ x.fixedChars, Text.isBlank c = false := by
  intro c hc
  rcases x.mem_fixedChars c hc with hdigit | hmem
  · exact Text.isBlank_eq_false_of_isDigit hdigit
  · have hall : ['-', '.', 'i', 'n', 'f', 'a'].all (!Text.isBlank ·) := rfl
    simpa using List.all_eq_true.mp hall c hmem

theorem colon_notMem_fixedChars (x : Double) : ':' ∉ x.fixedChars :=
  fun h => absurd (x.mem_fixedChars ':' h) (by decide)

theorem tab_notMem_fixedChars (x : Double) : '\t' ∉ x.fixedChars :=
  fun h => absurd (x.mem_fixedChars '\t' h) (by decide)

/-- Every value that is shown can be read. -/
theorem exists_value?_fixedChars (x : Double) : ∃ v, Report.value? x.fixedChars = some v := by
  have hread : (Numeral.read? x.fixedChars).isSome := by
    rw [fixedChars]
    split
    · next negative m e _ =>
      obtain ⟨c, whole, fraction, heq, hwhole, hfraction⟩ := exists_sixPlaces (millionths m e)
      rw [heq, List.cons_append, Numeral.read?_withSign (hwhole c List.mem_cons_self),
        ← List.cons_append, Numeral.decimal?_point hwhole hfraction (List.cons_ne_nil _ _)]
      rfl
    · next negative _ =>
      cases negative <;> rfl
    · rfl
  obtain ⟨n, hn⟩ := Option.isSome_iff_exists.mp hread
  exact ⟨n.toSingle, by rw [Report.value?, Single.ofText?, hn]; rfl⟩

end Double

/-! ## Reports -/

/-- In rows of one width the entry `j` of the row `i` stands in the place `i * width + j`. -/
theorem List.getElem?_flatten_of_length {α : Type} {width : Nat} {rows : List (List α)}
    (h : ∀ row ∈ rows, row.length = width) {i j : Nat} {row : List α} {x : α}
    (hrow : rows[i]? = some row) (hx : row[j]? = some x) :
    rows.flatten[i * width + j]? = some x := by
  induction rows generalizing i with
  | nil => cases hrow
  | cons first rest ih =>
    obtain ⟨hfirst, hrest⟩ := List.forall_mem_cons.mp h
    rw [List.flatten_cons]
    cases i with
    | zero =>
      obtain rfl : first = row := Option.some.inj hrow
      have hj : j < first.length := (List.getElem?_eq_some_iff.mp hx).1
      rw [Nat.zero_mul, Nat.zero_add, List.getElem?_append_left hj, hx]
    | succ i =>
      have hplace : (i + 1) * width + j - first.length = i * width + j := by
        rw [hfirst, Nat.succ_mul]
        omega
      rw [List.getElem?_append_right (by rw [hfirst, Nat.succ_mul]; omega), hplace]
      exact ih hrest hrow

namespace Report

/-- What one entry of a report shows. -/
structure Cell where
  name : String
  metric : Metric
  value : Double

/-- An entry without the tab before it. -/
def Cell.text (c : Cell) : List Char :=
  c.name.toList ++ '-' :: (c.metric.name.toList ++ ':' :: c.value.fixedChars)

/-- The entries of matrices with names, of which each has a row of values, one for every
metric. -/
def table (metrics : List Metric) (names : List String) (rows : List (List Double)) : List Cell :=
  (names.zip rows).flatMap fun (name, row) =>
    (metrics.zip row).map fun (metric, value) => ⟨name, metric, value⟩

/-- The text of entries. -/
def entries (cells : List Cell) : List Char := cells.flatMap fun c => '\t' :: c.text

variable {metrics : List Metric} {names : List String} {rows : List (List Double)}
variable {cells : List Cell}

theorem entries_append (cells cells' : List Cell) :
    entries (cells ++ cells') = entries cells ++ entries cells' :=
  List.flatMap_append

/-- With as many names as rows and rows of one value for every metric, the values of the
table are those of the rows, in order. -/
theorem map_value_table (hnames : names.length = rows.length)
    (hrows : ∀ row ∈ rows, row.length = metrics.length) :
    (table metrics names rows).map (·.value) = rows.flatten := by
  have hrow : ∀ p ∈ names.zip rows, (metrics.zip p.2).map (fun q => q.2) = p.2 :=
    fun p hp => List.map_snd_zip (Nat.le_of_eq (hrows p.2 (List.of_mem_zip hp).2))
  rw [table, List.map_flatMap]
  simp only [List.map_map, Function.comp_def]
  rw [List.flatMap_congr hrow, List.flatMap_def, List.map_snd_zip (Nat.le_of_eq hnames.symm)]

theorem length_table (hnames : names.length = rows.length)
    (hrows : ∀ row ∈ rows, row.length = metrics.length) :
    (table metrics names rows).length = rows.length * metrics.length := by
  have hwidths : ∀ n ∈ rows.map List.length, n = metrics.length := by
    intro n hn
    obtain ⟨row, hrow, rfl⟩ := List.mem_map.mp hn
    exact hrows row hrow
  rw [← List.length_map fun c : Cell => c.value, map_value_table hnames hrows, List.length_flatten,
    List.sum_eq_card_nsmul _ _ hwidths, List.length_map]
  rfl

/-- The entry of the row `i` and the metric `j`. -/
theorem exists_getElem?_table (hnames : names.length = rows.length)
    (hrows : ∀ row ∈ rows, row.length = metrics.length) {i j : Nat} {row : List Double} {x : Double}
    (hrow : rows[i]? = some row) (hx : row[j]? = some x) :
    ∃ c, (table metrics names rows)[i * metrics.length + j]? = some c ∧ c.value = x := by
  have hvalue := List.getElem?_flatten_of_length hrows hrow hx
  rwa [← map_value_table hnames hrows, List.getElem?_map, Option.map_eq_some_iff] at hvalue

theorem name_mem_of_mem_table {c : Cell} (hc : c ∈ table metrics names rows) : c.name ∈ names := by
  obtain ⟨p, hp, hc⟩ := List.mem_flatMap.mp hc
  obtain ⟨q, -, rfl⟩ := List.mem_map.mp hc
  exact (List.of_mem_zip hp).1

/-- Where there are metrics, every name is shown. -/
theorem exists_mem_table (hnames : names.length = rows.length)
    (hrows : ∀ row ∈ rows, row.length = metrics.length) (hmetrics : metrics ≠ []) {name : String}
    (hname : name ∈ names) : ∃ c ∈ table metrics names rows, c.name = name := by
  have hzip : (names.zip rows).map (fun p => p.1) = names :=
    List.map_fst_zip (Nat.le_of_eq hnames)
  obtain ⟨p, hp, rfl⟩ := List.mem_map.mp (hzip.symm ▸ hname)
  have hlength := hrows p.2 (List.of_mem_zip hp).2
  cases hpairs : metrics.zip p.2 with
  | nil =>
    -- A metric and a value make a pair.
    rcases List.zip_eq_nil_iff.mp hpairs with h | h
    · exact absurd h hmetrics
    · rw [h] at hlength
      exact absurd (List.length_eq_zero_iff.mp hlength.symm) hmetrics
  | cons q rest =>
    refine ⟨⟨p.1, q.1, q.2⟩, List.mem_flatMap.mpr ⟨p, hp, List.mem_map.mpr ⟨q, ?_, rfl⟩⟩, rfl⟩
    rw [hpairs]
    exact List.mem_cons_self

/-! ## Reading -/

theorem tab_notMem_opening (iteration : Int32) : '\t' ∉ opening iteration := by
  have hdigits : '\t' ∉ Nat.toDigits 10 iteration.toInt.natAbs := Numeral.notMem_toDigits rfl _
  rw [opening, withSign]
  split <;> simp [hdigits]

/-- The tabs of an entry are those of its name. -/
theorem count_tab_text (c : Cell) : c.text.count '\t' = c.name.toList.count '\t' := by
  have hmetric : c.metric.name.toList.count '\t' = 0 := by cases c.metric <;> decide
  have hvalue : c.value.fixedChars.count '\t' = 0 :=
    List.count_eq_zero.mpr c.value.tab_notMem_fixedChars
  simp [Cell.text, List.count_append, hmetric, hvalue]

/-- A report is cut into the texts of its entries if these hold no tabs. -/
theorem splitOn_tab_opening (iteration : Int32) {texts : List (List Char)}
    (htexts : ∀ p ∈ texts, '\t' ∉ p) :
    Text.splitOn '\t' (opening iteration ++ texts.flatMap ('\t' :: ·)) =
      opening iteration :: texts := by
  have hparts : ∀ p ∈ opening iteration :: texts, '\t' ∉ p :=
    List.forall_mem_cons.mpr ⟨tab_notMem_opening iteration, htexts⟩
  rw [← Text.splitOn_intercalate hparts (List.cons_ne_nil _ _), Text.intercalate_cons_eq]

theorem entries_eq_flatMap (cells : List Cell) :
    entries cells = (cells.map Cell.text).flatMap ('\t' :: ·) := by
  rw [entries, List.flatMap_map]

theorem tab_notMem_text {c : Cell} (h : '\t' ∉ c.name.toList) : '\t' ∉ c.text := by
  rw [← List.count_eq_zero, count_tab_text]
  exact List.count_eq_zero.mpr h

/-- The tabs of a report: one before every entry, and those of the names. -/
theorem count_tab_report (iteration : Int32) (cells : List Cell) :
    (opening iteration ++ entries cells).count '\t' =
      cells.length + (cells.map fun c => c.name.toList.count '\t').sum := by
  rw [List.count_append, List.count_eq_zero.mpr (tab_notMem_opening iteration), Nat.zero_add]
  induction cells with
  | nil => rfl
  | cons c cells ih =>
    rw [entries, List.flatMap_cons, List.count_append, ← entries, ih, List.count_cons_self,
      count_tab_text, List.map_cons, List.sum_cons, List.length_cons]
    omega

/-- What follows the last colon of an entry is its value. -/
theorem parseEntry_append (before : List Char) {x : Double} {v : Single}
    (h : value? x.fixedChars = some v) : parseEntry (before ++ ':' :: x.fixedChars) = .ok v := by
  rw [parseEntry, Text.cutLast_append before x.colon_notMem_fixedChars]
  dsimp only
  rw [Text.trim_eq_self x.isBlank_of_mem_fixedChars, h]

theorem parseEntry_text {c : Cell} {v : Single} (h : value? c.value.fixedChars = some v) :
    parseEntry c.text = .ok v := by
  rw [← parseEntry_append (c.name.toList ++ '-' :: c.metric.name.toList) h, List.append_assoc]
  rfl

/-- A report whose entries hold no tabs is read entry by entry. -/
theorem parse_opening (iteration : Int32) {texts : List (List Char)} {values : List Single}
    (htexts : ∀ p ∈ texts, '\t' ∉ p)
    (h : List.Forall₂ (fun text v => parseEntry text = .ok v) texts values) :
    parse (opening iteration ++ texts.flatMap ('\t' :: ·)) = .ok values := by
  rw [parse, splitOn_tab_opening iteration htexts, List.drop_one, List.tail_cons]
  clear htexts
  induction h with
  | nil => rfl
  | cons hentry _ ih =>
    rw [List.mapM_cons, hentry, ih]
    rfl

/-- A report whose names hold no tabs is read back: value by value what the entries show. -/
theorem parse_table (iteration : Int32) (hcells : ∀ c ∈ cells, '\t' ∉ c.name.toList) :
    ∃ values, parse (opening iteration ++ entries cells) = .ok values ∧
      values.map some = cells.map fun c => value? c.value.fixedChars := by
  choose v hv using fun c : Cell => c.value.exists_value?_fixedChars
  refine ⟨cells.map v, ?_, by simp [hv]⟩
  rw [entries_eq_flatMap]
  apply parse_opening
  · rintro p hp
    obtain ⟨c, hc, rfl⟩ := List.mem_map.mp hp
    exact tab_notMem_text (hcells c hc)
  · rw [List.forall₂_map_left_iff, List.forall₂_map_right_iff, List.forall₂_same]
    exact fun c _ => parseEntry_text (hv c)

/-- However a report is read, there is a value for every tab. -/
theorem length_of_parse {report : List Char} {values : List Single}
    (h : parse report = .ok values) : values.length = report.count '\t' := by
  rw [(List.mapM_eq_ok h).1, List.length_drop, Text.length_splitOn, Nat.add_sub_cancel]

/-- If a name holds a tab, there are more values than entries. -/
theorem length_lt_of_parse {iteration : Int32} {values : List Single}
    (h : parse (opening iteration ++ entries cells) = .ok values) {c : Cell} (hc : c ∈ cells)
    (htab : '\t' ∈ c.name.toList) : cells.length < values.length := by
  have hone : c.name.toList.count '\t' ≤ (cells.map fun c => c.name.toList.count '\t').sum :=
    List.le_sum_of_mem (List.mem_map_of_mem hc)
  have hpos : 0 < c.name.toList.count '\t' := List.count_pos_iff.mpr htab
  have hlength := length_of_parse h
  rw [count_tab_report] at hlength
  omega

end Report

/-! ## Scores -/

namespace Learner

open EngineM
open BoostedTrees.Report (table entries)

variable {l : Learner}

/-- The scores of matrices, one for every metric that is reported. -/
def scoreEach : List Matrix → LearnerM (List (List Double))
  | [] => return []
  | m :: rest => do
    let predictions ← scoredPredictions m
    let row ← check fun l => l.settings.reportedMetrics.mapM (·.score l.outputs m predictions)
    return row :: (← scoreEach rest)

/-- The entries of a matrix show its scores. -/
theorem scoreEntries_eq (outputs : Nat) (m : Matrix) (name : String) (predictions : Array Single)
    (metrics : List Metric) :
    scoreEntries outputs m name predictions metrics =
      (metrics.mapM fun metric : Metric => metric.score outputs m predictions).map fun row =>
        entries ((metrics.zip row).map fun (metric, value) => ⟨name, metric, value⟩) := by
  induction metrics with
  | nil => rfl
  | cons metric rest ih =>
    rw [scoreEntries, ih, List.mapM_cons]
    cases metric.score outputs m predictions with
    | error e => rfl
    | ok value =>
      cases rest.mapM (fun metric : Metric => metric.score outputs m predictions) with
      | error e => rfl
      | ok row => rfl

theorem settings_scoredPredictions (m : Matrix) (l : Learner) :
    (scoredPredictions m l).2.settings = l.settings := by
  have hlooks : Looks (scoredPredictions m) :=
    .bind (.margins m false) fun _ => .bind .get fun _ => .pure _
  obtain ⟨c, hc⟩ := hlooks l
  rw [hc]

/-- The entries of an evaluation show its scores, for as many matrices as names. -/
theorem evaluateEach_eq_scoreEach (ps : List (Matrix × String)) (l : Learner) :
    evaluateEach ps l =
      ((scoreEach (ps.map (·.1)) l).1.map fun rows =>
          entries (table l.settings.reportedMetrics (ps.map (·.2)) rows),
        (scoreEach (ps.map (·.1)) l).2) := by
  induction ps generalizing l with
  | nil => rfl
  | cons p rest ih =>
    obtain ⟨m, name⟩ := p
    have hsettings := settings_scoredPredictions m l
    simp only [evaluateEach, scoreEach, List.map_cons, bind_apply, check_apply, scoreEntries_eq]
    rcases hscored : scoredPredictions m l with ⟨e | predictions, t⟩
    · rfl
    rw [hscored] at hsettings
    dsimp only at hsettings ⊢
    rw [← hsettings]
    cases t.settings.reportedMetrics.mapM
      fun metric : Metric => metric.score t.outputs m predictions with
    | error e => rfl
    | ok row =>
      simp only [Except.map, ih]
      rcases hrest : scoreEach (rest.map fun p => p.1) t with ⟨e | rows, u⟩
      · simp only [hrest]
      · simp only [hrest]
        exact congrArg (fun text => (Except.ok text, u)) (Report.entries_append _ _).symm

/-- There is a row of scores for every matrix, with a score for every metric. -/
theorem length_scoreEach {ms : List Matrix} {rows : List (List Double)}
    (h : (scoreEach ms l).1 = .ok rows) :
    rows.length = ms.length ∧ ∀ row ∈ rows, row.length = l.settings.reportedMetrics.length := by
  induction ms generalizing l rows with
  | nil =>
    cases h
    exact ⟨rfl, fun row hrow => absurd hrow List.not_mem_nil⟩
  | cons m rest ih =>
    have hsettings := settings_scoredPredictions m l
    simp only [scoreEach, bind_apply, check_apply] at h
    rcases hscored : scoredPredictions m l with ⟨e | predictions, t⟩
    · rw [hscored] at h
      cases h
    rw [hscored] at h hsettings
    dsimp only at h hsettings
    rcases hrow : t.settings.reportedMetrics.mapM
      (fun metric : Metric => metric.score t.outputs m predictions) with e | row
    · rw [hrow] at h
      cases h
    rw [hrow] at h
    dsimp only at h
    rcases hrest : scoreEach rest t with ⟨e | following, u⟩
    · rw [hrest] at h
      cases h
    rw [hrest] at h
    cases h
    obtain ⟨hlength, hrows⟩ := ih (congrArg Prod.fst hrest)
    rw [hsettings] at hrow hrows
    exact ⟨congrArg (· + 1) hlength, List.forall_mem_cons.mpr ⟨(List.mapM_eq_ok hrow).1, hrows⟩⟩

/-- A report shows the scores of the matrices, each under its name. -/
theorem exists_scoreEach_of_evaluate {iteration : Int32} {ms : List Matrix} {names : List String}
    {report : String} (h : (evaluate iteration ms names l).1 = .ok report) :
    ms.length = names.length ∧ ∃ rows, (scoreEach ms l).1 = .ok rows ∧
      report = String.ofList (Report.opening iteration ++
        entries (table l.settings.reportedMetrics names rows)) := by
  unfold evaluate at h
  by_cases hlength : ms.length = names.length
  · rw [if_neg (not_not_intro hlength)] at h
    dsimp only at h
    rw [bind_apply, check_apply] at h
    have hms : (ms.zip names).map (fun p => p.1) = ms := List.map_fst_zip (Nat.le_of_eq hlength)
    have hnames : (ms.zip names).map (fun p => p.2) = names :=
      List.map_snd_zip (Nat.le_of_eq hlength.symm)
    cases hchecked : ms.forM (·.checkMetadata l.outputs) with
    | error e =>
      rw [hchecked] at h
      cases h
    | ok _ =>
      rw [hchecked] at h
      dsimp only at h
      rw [bind_apply, evaluateEach_eq_scoreEach, hms, hnames] at h
      refine ⟨hlength, ?_⟩
      rcases hscored : scoreEach ms l with ⟨e | rows, t⟩
      · rw [hscored] at h
        cases h
      · rw [hscored] at h
        cases h
        exact ⟨rows, rfl, rfl⟩
  · rw [if_pos hlength] at h
    cases h

end Learner

/-! ## Reports and their values through a lease -/

theorem Settings.length_reportedMetrics (s : Settings) :
    s.reportedMetrics.length = max s.metrics.length 1 := by
  unfold reportedMetrics
  cases s.metrics with
  | nil => rfl
  | cons metric rest => simp

namespace Lease

open LeaseM
open BoostedTrees.Matrix (lonelyRow)

variable {w : Workshop} {h : Handle} {learner : Learner} {ms : List Matrix} {names : List String}
variable {iteration : Int32} {report : String}

/-- A report comes from the learner of the handle, for as many matrices as names. -/
theorem evaluate_of_ok (hl : w.learner? h = some learner) (version : Int32)
    (hreport : (evaluate Workshop.engine ⟨some h, version⟩ ms names iteration w).1 = .ok report) :
    (Learner.evaluate iteration ms names learner).1 = .ok report := by
  rw [evaluate, checkNames_eq] at hreport
  cases hfault : namesFault? ms names with
  | some err =>
    rw [hfault] at hreport
    cases hreport
  | none =>
    have hask : ask Workshop.engine ⟨some h, version⟩ (.evaluate iteration ms names) w =
        ((Learner.evaluate iteration ms names learner).1.mapError .native,
          w.setLearner h (Learner.evaluate iteration ms names learner).2) := ask_apply hl rfl
    rw [hfault, pure_bind, hask] at hreport
    cases hresult : (Learner.evaluate iteration ms names learner).1 with
    | error e =>
      rw [hresult] at hreport
      cases hreport
    | ok text =>
      rw [hresult] at hreport
      exact congrArg Except.ok (Except.ok.inj hreport)

/-- The values are read off the report that the engine gives, without another call. -/
theorem evaluateInto_of_ok {lease : Lease}
    (hreport : (lease.evaluate Workshop.engine ms names iteration w).1 = .ok report) :
    lease.evaluateInto Workshop.engine ms names iteration w =
      (((Report.parse report.toList).mapError .native).map fun values => (report, values),
        (lease.evaluate Workshop.engine ms names iteration w).2) := by
  rw [evaluateInto, bind_ok hreport, bind_apply, judge_apply]
  cases Report.parse report.toList <;> rfl

/-- Let an evaluation give a report. It shows the scores of the matrices, a row for each with a
score for every metric that is set or for the one default. If no name holds a tab, the values can
be had with the report, and they are as many: the value in place `i * count + j` is what is read
off the text that is shown for the score `j` of the matrix `i`. If a name holds a tab, no values
come back or too many. The engine is left alike in all cases. -/
theorem evaluateInto_of_evaluate (hl : w.learner? h = some learner) (version : Int32)
    (hreport : (evaluate Workshop.engine ⟨some h, version⟩ ms names iteration w).1 = .ok report) :
    let lease : Lease := ⟨some h, version⟩
    let count := max learner.settings.metrics.length 1
    ∃ rows, (Learner.scoreEach ms learner).1 = .ok rows ∧
      rows.length = ms.length ∧ (∀ row ∈ rows, row.length = count) ∧
      report = String.ofList (Report.opening iteration ++
        Report.entries (Report.table learner.settings.reportedMetrics names rows)) ∧
      (lease.evaluateInto Workshop.engine ms names iteration w).2 =
        (lease.evaluate Workshop.engine ms names iteration w).2 ∧
      ((∀ name ∈ names, '\t' ∉ name.toList) →
        ∃ values, (lease.evaluateInto Workshop.engine ms names iteration w).1 = .ok (report, values) ∧
          values.length = ms.length * count ∧
          ∀ i row j x, rows[i]? = some row → row[j]? = some x →
            values[i * count + j]? = Report.value? x.fixedChars) ∧
      ((∃ name ∈ names, '\t' ∈ name.toList) →
        ∀ reply, (lease.evaluateInto Workshop.engine ms names iteration w).1 = .ok reply →
          reply.1 = report ∧ ms.length * count < reply.2.length) := by
  intro lease count
  have hlearner := evaluate_of_ok hl version hreport
  obtain ⟨hnames, rows, hrows, rfl⟩ := Learner.exists_scoreEach_of_evaluate hlearner
  obtain ⟨hlength, hwidth⟩ := Learner.length_scoreEach hrows
  have hcount : learner.settings.reportedMetrics.length = count :=
    learner.settings.length_reportedMetrics
  have hmatch : names.length = rows.length := hnames.symm.trans hlength.symm
  have hcells := Report.length_table hmatch hwidth
  rw [hlength, hcount] at hcells
  have hinto := evaluateInto_of_ok hreport
  refine ⟨rows, hrows, hlength, fun row hrow => (hwidth row hrow).trans hcount, rfl,
    congrArg Prod.snd hinto, fun hfree => ?_, fun ⟨name, hname, htab⟩ reply hreply => ?_⟩
  · obtain ⟨values, hparse, hread⟩ := Report.parse_table iteration fun c hc =>
      hfree c.name (Report.name_mem_of_mem_table hc)
    refine ⟨values, ?_, ?_, fun i row j x hrow hx => ?_⟩
    · rw [hinto, String.toList_ofList, hparse]
      rfl
    · have hsame := congrArg List.length hread
      rwa [List.length_map, List.length_map, hcells] at hsame
    · -- What is read is read off the texts of the scores, in the order of the table.
      obtain ⟨c, hc, rfl⟩ := Report.exists_getElem?_table hmatch hwidth hrow hx
      rw [hcount] at hc
      have hsame := congrArg (·[i * count + j]?) hread
      simp only [List.getElem?_map, hc, Option.map_some] at hsame
      obtain ⟨v, hv, hvalue⟩ := Option.map_eq_some_iff.mp hsame
      rw [hv, hvalue]
  · rw [hinto, String.toList_ofList] at hreply
    cases hparse : Report.parse (Report.opening iteration ++
        Report.entries (Report.table learner.settings.reportedMetrics names rows)) with
    | error e =>
      rw [hparse] at hreply
      cases hreply
    | ok values =>
      rw [hparse] at hreply
      cases hreply
      have hmetrics : learner.settings.reportedMetrics ≠ [] :=
        List.ne_nil_of_length_pos (by omega)
      obtain ⟨c, hc, rfl⟩ := Report.exists_mem_table hmatch hwidth hmetrics hname
      have hmore := Report.length_lt_of_parse hparse hc htab
      exact ⟨rfl, by rwa [hcells] at hmore⟩

/-- One matrix is scored under a name without a tab and under one with a tab. -/
theorem evaluateInto_of_evaluate_lonelyRow :
    let h : Handle := ⟨1, by decide⟩
    let lease : Lease := ⟨some h, 0⟩
    let w : Workshop := { Workshop.empty with learners := [(h, .create [lonelyRow 7])] }
    (∃ report values, (lease.evaluate Workshop.engine [lonelyRow 7] ["a"] 0 w).1 = .ok report ∧
      (lease.evaluateInto Workshop.engine [lonelyRow 7] ["a"] 0 w).1 = .ok (report, values) ∧
      values.length = 1) ∧
    (∃ report, (lease.evaluate Workshop.engine [lonelyRow 7] ["a:9\tb"] 0 w).1 = .ok report) ∧
      ∀ reply, (lease.evaluateInto Workshop.engine [lonelyRow 7] ["a:9\tb"] 0 w).1 = .ok reply →
        1 < reply.2.length := by
  intro h lease w
  have hl : w.learner? h = some (.create [lonelyRow 7]) := rfl
  obtain ⟨report, hreport⟩ :
      ∃ report, (lease.evaluate Workshop.engine [lonelyRow 7] ["a"] 0 w).1 = .ok report := ⟨_, rfl⟩
  obtain ⟨report', hreport'⟩ :
      ∃ report, (lease.evaluate Workshop.engine [lonelyRow 7] ["a:9\tb"] 0 w).1 = .ok report :=
    ⟨_, rfl⟩
  obtain ⟨rows, -, -, -, -, -, hfree, -⟩ := evaluateInto_of_evaluate hl 0 hreport
  obtain ⟨rows', -, -, -, -, -, -, hmarked⟩ := evaluateInto_of_evaluate hl 0 hreport'
  obtain ⟨values, hinto, hlength, -⟩ := hfree (by decide)
  refine ⟨⟨report, values, hreport, hinto, hlength⟩, ⟨report', hreport'⟩, fun reply hreply => ?_⟩
  exact (hmarked (by decide) reply hreply).2

end Lease

end BoostedTrees
