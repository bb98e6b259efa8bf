import BoostedTrees.Proofs.ComparedNumbers
import BoostedTrees.Proofs.SplitFeatures

/-!
# Searching the features in parts

The best candidates of the features are compared two at a time, in an order that is left to those
who divide the features among them. If all gains are numbers, this order does not matter: the
candidate that stays is the first of those that gain most.

A NaN spoils this. It is neither less nor greater than anything, so of two candidates the first
stays if one of the gains is a NaN. Of three candidates whose middle one has a NaN and whose last
one gains more than the first, the last one stays if the first two are compared before; but if the
last two are, the NaN hides the last one, and then gives way to the first.

What is needed is a candidate that leads: it gains more than all before it, and none behind it
gains more. It is the best in every division of the features. Without a candidate that leads the
division matters, and a single cut shows that it does.

## Main definitions

* `Split.Leads`: a candidate gains more than those before it, and none behind it gains more
* `Split.HasLeader`: one of some candidates leads

## Main results

* `Split.better_assoc_iff`: when the order of two comparisons does not matter
* `Split.Division.best?_of_leads`: a candidate that leads is the best in every division
* `Split.Division.best?_eq_iff`: all divisions have the same best if and only if there are no
  candidates or one leads
-/

namespace BoostedTrees

namespace Split

/-! ## Two and three candidates -/

section Better

variable {a b c : Split}

/-- The first candidate stays unless the second gains more, if it has the smaller feature. -/
theorem better_of_feature_lt (h : a.feature < b.feature) :
    better a b = if a.gain < b.gain then b else a := by
  have hnot : ¬b.feature < a.feature := by
    rw [UInt32.lt_iff_toNat_lt] at h ⊢
    omega
  simp only [better, hnot, and_false, or_false]

theorem better_eq_left (h : a.feature < b.feature) (hgain : ¬a.gain < b.gain) : better a b = a := by
  rw [better_of_feature_lt h, if_neg hgain]

theorem better_eq_right (hgain : a.gain < b.gain) : better a b = b := if_pos (.inl hgain)

/-- Both ways to compare three candidates give the same unless the one in the middle has a NaN and
the last gains more than the first. -/
theorem better_assoc_iff (hab : a.feature < b.feature) (hbc : b.feature < c.feature) :
    better (better a b) c = better a (better b c) ↔ ¬(b.gain.isNaN ∧ a.gain < c.gain) := by
  have hac : a.feature < c.feature := by
    rw [UInt32.lt_iff_toNat_lt] at hab hbc ⊢
    omega
  by_cases hfirst : a.gain < b.gain
  · -- The first candidate falls out at once, or after the second has won.
    have hnumber := (Double.not_isNaN_of_lt hfirst).2
    refine iff_of_true ?_ fun h => Bool.eq_false_iff.mp hnumber h.1
    rw [better_eq_right hfirst]
    by_cases hlast : b.gain < c.gain
    · rw [better_eq_right hlast, better_eq_right (Double.lt_trans hfirst hlast)]
    · rw [better_eq_left hbc hlast, better_eq_right hfirst]
  rw [better_eq_left hab hfirst]
  by_cases hlast : b.gain < c.gain
  · have hnumber := (Double.not_isNaN_of_lt hlast).1
    refine iff_of_true ?_ fun h => Bool.eq_false_iff.mp hnumber h.1
    rw [better_eq_right hlast]
  rw [better_eq_left hbc hlast, better_eq_left hab hfirst]
  by_cases hgain : a.gain < c.gain
  · -- Between numbers there would be no room for the second candidate.
    have hnan : b.gain.isNaN = true := by
      by_contra hnumber
      exact hlast (Double.lt_of_lt_of_not_lt hgain (Bool.eq_false_iff.mpr hnumber) hfirst)
    rw [better_eq_right hgain]
    refine iff_of_false ?_ (not_not.mpr ⟨hnan, hgain⟩)
    rintro rfl
    exact absurd hac (UInt32.lt_irrefl _)
  · exact iff_of_true (better_eq_left hac hgain) fun h => hgain h.2

end Better

/-! ## Leading candidates -/

/-- A candidate gains more than all before it, and none behind it gains more. -/
structure Leads (s : Split) (before after : List Split) : Prop where
  above : ∀ a ∈ before, a.gain < s.gain
  unbeaten : ∀ b ∈ after, ¬s.gain < b.gain

/-- One of some candidates leads. -/
def HasLeader (cs : List Split) : Prop :=
  ∃ before s after, cs = before ++ s :: after ∧ s.Leads before after

/-- The candidates stand in the order of their features. -/
def Ascending (cs : List Split) : Prop := cs.Pairwise fun a b => a.feature < b.feature

section Ascending

variable {before after : List Split} {s : Split}

theorem best?_concat (l : List Split) (s : Split) :
    best? (l ++ [s]) = some (match best? l with | none => s | some b => better b s) := by
  cases l with
  | nil => rfl
  | cons a l => exact congrArg some (List.foldl_append ..)

theorem exists_best?_eq {cs : List Split} (h : cs ≠ []) : ∃ s, best? cs = some s := by
  obtain ⟨a, cs, rfl⟩ := List.exists_cons_of_ne_nil h
  exact ⟨_, rfl⟩

/-- A candidate with a NaN leads those behind it. -/
theorem leads_of_isNaN (h : s.gain.isNaN = true) (after : List Split) : s.Leads [] after :=
  ⟨nofun, fun _ _ hlt => Bool.eq_false_iff.mp (Double.not_isNaN_of_lt hlt).1 h⟩

/-- A candidate that leads is the best from the left. -/
theorem best?_of_leads (h : s.Leads before after) (hasc : Ascending (before ++ s :: after)) :
    best? (before ++ s :: after) = some s := by
  induction after using List.reverseRecOn with
  | nil =>
    rw [best?_concat]
    cases hbest : best? before with
    | none => rfl
    | some b => exact congrArg some (better_eq_right (h.above b (mem_of_best? hbest)))
  | append_singleton after b ih =>
    rw [← List.cons_append, ← List.append_assoc] at hasc ⊢
    obtain ⟨hasc, -, hbehind⟩ := List.pairwise_append.mp hasc
    have hrest := ih ⟨h.above, fun c hc => h.unbeaten c (List.mem_append_left _ hc)⟩ hasc
    rw [best?_concat, hrest]
    have hfeature := hbehind s (List.mem_append_right _ List.mem_cons_self) b List.mem_cons_self
    exact congrArg some (better_eq_left hfeature
      (h.unbeaten b (List.mem_append_right _ List.mem_cons_self)))

/-- What is the best from the left gains more than all before it that have a number, and none behind
it gains more. -/
theorem exists_of_best? {cs : List Split} (h : best? cs = some s) (hasc : Ascending cs) :
    ∃ before after, cs = before ++ s :: after ∧
      (∀ a ∈ before, a.gain.isNaN = false → a.gain < s.gain) ∧ ∀ b ∈ after, ¬s.gain < b.gain := by
  induction cs using List.reverseRecOn generalizing s with
  | nil => cases h
  | append_singleton cs c ih =>
    obtain ⟨hrest, -, hbehind⟩ := List.pairwise_append.mp hasc
    rw [best?_concat] at h
    cases hbest : best? cs with
    | none =>
      rw [hbest] at h
      cases h
      cases cs with
      | nil => exact ⟨[], [], rfl, nofun, nofun⟩
      | cons a cs => cases hbest
    | some b =>
      rw [hbest] at h
      obtain ⟨before, after, rfl, habove, hunbeaten⟩ := ih hbest hrest
      have hfeature := hbehind b (List.mem_append_right _ List.mem_cons_self) c List.mem_cons_self
      have hs : better b c = s := Option.some.inj h
      by_cases hgain : b.gain < c.gain
      · rw [better_eq_right hgain] at hs
        subst hs
        refine ⟨_, [], rfl, fun a ha hnumber => ?_, nofun⟩
        rcases List.mem_append.mp ha with ha | ha
        · exact Double.lt_trans (habove a ha hnumber) hgain
        rcases List.mem_cons.mp ha with rfl | ha
        · exact hgain
        · exact Double.lt_of_lt_of_not_lt hgain hnumber (hunbeaten a ha)
      · rw [better_eq_left hfeature hgain] at hs
        subst hs
        refine ⟨before, after ++ [c], by rw [List.append_assoc, List.cons_append], habove,
          fun d hd => ?_⟩
        rcases List.mem_append.mp hd with hd | hd
        · exact hunbeaten d hd
        · rwa [List.mem_singleton.mp hd]

/-- If all gains are numbers, one of the candidates leads, as long as there are any. -/
theorem eq_nil_or_hasLeader {cs : List Split} (hasc : Ascending cs)
    (h : ∀ s ∈ cs, s.gain.isNaN = false) : cs = [] ∨ HasLeader cs := by
  cases cs with
  | nil => exact .inl rfl
  | cons a cs =>
    obtain ⟨before, after, heq, habove, hunbeaten⟩ := exists_of_best? rfl hasc
    exact .inr ⟨before, _, after, heq,
      fun c hc => habove c hc (h c (heq ▸ List.mem_append_left _ hc)), hunbeaten⟩

end Ascending

/-! ## Divisions -/

namespace Division

variable {offers : List (Option Split)} {before after : List Split} {s : Split}

/-- A candidate that leads is the best in every division. -/
theorem best?_of_leads (d : Division) (hoffers : offers.filterMap id = before ++ s :: after)
    (h : s.Leads before after) (hasc : Ascending (before ++ s :: after)) :
    d.best? offers = some s := by
  induction d generalizing offers before after with
  | whole => exact (congrArg Split.best? hoffers).trans (Split.best?_of_leads h hasc)
  | cut width first second ihfirst ihsecond =>
    have hparts : (offers.take width).filterMap id ++ (offers.drop width).filterMap id =
        before ++ s :: after := by
      rw [← List.filterMap_append, List.take_append_drop, hoffers]
    -- Where the leader stands in the second part, it beats the best of the first.
    have hlater : ∀ middle, before = (offers.take width).filterMap id ++ middle →
        (offers.drop width).filterMap id = middle ++ s :: after →
        (cut width first second).best? offers = some s := by
      rintro middle rfl hsecond
      rw [List.append_assoc] at hasc
      obtain ⟨-, hasc, -⟩ := List.pairwise_append.mp hasc
      rw [best?, ihsecond hsecond ⟨fun a ha => h.above a (List.mem_append_right _ ha), h.unbeaten⟩
        hasc]
      cases hbest : first.best? (offers.take width) with
      | none => rfl
      | some a =>
        exact congrArg some (better_eq_right (h.above a (List.mem_append_left _
          (mem_of_best? hbest))))
    rcases List.append_eq_append_iff.mp hparts with ⟨middle, hbefore, hsecond⟩ |
      ⟨middle, hfirst, hafter⟩
    · exact hlater middle hbefore hsecond
    cases middle with
    | nil => exact hlater [] (by rw [hfirst, List.append_nil, List.append_nil]) hafter.symm
    | cons c middle =>
      rw [List.cons_append] at hafter
      obtain ⟨rfl, rfl⟩ := List.cons.inj hafter
      rw [← List.cons_append, ← List.append_assoc] at hasc
      obtain ⟨hasc, -, hbehind⟩ := List.pairwise_append.mp hasc
      rw [best?, ihfirst hfirst ⟨h.above, fun b hb => h.unbeaten b (List.mem_append_left _ hb)⟩
        hasc]
      cases hbest : second.best? (offers.drop width) with
      | none => rfl
      | some b =>
        have hb := mem_of_best? hbest
        exact congrArg some (better_eq_left
          (hbehind s (List.mem_append_right _ List.mem_cons_self) b hb)
          (h.unbeaten b (List.mem_append_right _ hb)))

/-- Where no candidate leads, a NaN stands before the best from the left, and a cut before this NaN
hides it. -/
theorem exists_cut_best?_ne {cs : List Split} (hoffers : offers.filterMap id = cs)
    (hasc : Ascending cs) (hbest : Split.best? cs = some s) (h : ¬HasLeader cs) :
    ∃ width a, (cut width whole whole).best? offers = some a ∧ a.feature < s.feature := by
  obtain ⟨before, after, rfl, habove, hunbeaten⟩ := exists_of_best? hbest hasc
  obtain ⟨n, hn, hnan⟩ : ∃ n ∈ before, n.gain.isNaN = true := by
    by_contra hnone
    exact h ⟨before, s, after, rfl,
      fun a ha => habove a ha (Bool.eq_false_iff.mpr fun hnan => hnone ⟨a, ha, hnan⟩), hunbeaten⟩
  obtain ⟨front, back, rfl⟩ := List.append_of_mem hn
  rw [List.append_assoc, List.cons_append] at hoffers hasc
  obtain ⟨firsts, rest, rfl, hfirsts, hrest⟩ := List.filterMap_eq_append_iff.mp hoffers
  obtain ⟨-, hascRest, hacross⟩ := List.pairwise_append.mp hasc
  have hsecond : whole.best? rest = some n :=
    (congrArg Split.best? hrest).trans (Split.best?_of_leads (leads_of_isNaN hnan _) hascRest)
  have hns : n.feature < s.feature := (List.pairwise_cons.mp hascRest).1 s
    (List.mem_append_right _ List.mem_cons_self)
  refine ⟨firsts.length, ?_⟩
  rw [best?, List.take_left, List.drop_left, hsecond]
  cases hfirst : whole.best? firsts with
  | none => exact ⟨n, rfl, hns⟩
  | some a =>
    have ha : a ∈ front := hfirsts ▸ mem_of_best? hfirst
    refine ⟨a, congrArg some ?_, hacross a ha s ?_⟩
    · exact better_eq_left (hacross a ha n List.mem_cons_self) fun hlt =>
        Bool.eq_false_iff.mp (Double.not_isNaN_of_lt hlt).2 hnan
    · exact List.mem_cons_of_mem _ (List.mem_append_right _ List.mem_cons_self)

/-- All divisions have the same best if and only if there are no candidates or one leads. -/
theorem best?_eq_iff (hasc : Ascending (offers.filterMap id)) :
    (∀ d d' : Division, d.best? offers = d'.best? offers) ↔
      offers.filterMap id = [] ∨ HasLeader (offers.filterMap id) := by
  constructor
  · intro hsame
    by_contra hnot
    obtain ⟨hne, hleader⟩ := not_or.mp hnot
    obtain ⟨s, hs⟩ := exists_best?_eq hne
    obtain ⟨width, b, hb, hlt⟩ := exists_cut_best?_ne rfl hasc hs hleader
    have heq : b = s := Option.some.inj ((hb.symm.trans (hsame _ whole)).trans hs)
    exact absurd (heq ▸ hlt) (UInt32.lt_irrefl _)
  · rintro (hnil | ⟨before, s, after, heq, hleads⟩) d d'
    · have hnone : ∀ d : Division, d.best? offers = none := by
        refine fun d => Option.eq_none_iff_forall_ne_some.mpr fun s hs => ?_
        exact absurd (hnil ▸ mem_of_best? hs) List.not_mem_nil
      rw [hnone, hnone]
    · rw [heq] at hasc
      rw [best?_of_leads d heq hleads hasc, best?_of_leads d' heq hleads hasc]

end Division

/-! ## What the features offer -/

section Offered

variable {rules : GrowthRules} {m : Matrix} {g : Gradient} {rows : List Nat} {total : Sums}

/-- The features offer their best candidates in their own order. -/
theorem ascending_offered : Ascending (offered rules m g rows total) := by
  refine List.pairwise_filterMap.mpr (List.pairwise_lt_range.imp_of_mem ?_)
  intro i j hi hj hlt a ha b hb
  have hword : j < 2 ^ 32 := (List.mem_range.mp hj).trans (Nat.mod_lt _ (by decide))
  rw [feature_of_bestOf? ha, feature_of_bestOf? hb, UInt32.lt_iff_toNat_lt,
    UInt32.toNat_ofNat_of_lt' (hlt.trans hword), UInt32.toNat_ofNat_of_lt' hword]
  exact hlt

/-- All divisions of the features have the same best if and only if none of them offers anything or
one of their candidates leads. -/
theorem Division.best?_offers_eq_iff :
    (∀ d d' : Division, d.best? (offers rules m g rows total) =
        d'.best? (offers rules m g rows total)) ↔
      offered rules m g rows total = [] ∨ HasLeader (offered rules m g rows total) := by
  have hasc : Ascending (offered rules m g rows total) := ascending_offered
  rw [← filterMap_offers] at hasc ⊢
  exact best?_eq_iff hasc

/-- As long as all gains are numbers, what the features offer has the same best in every division as
from the left. -/
theorem Division.best?_offers (d : Division)
    (h : ∀ s ∈ offered rules m g rows total, s.gain.isNaN = false) :
    d.best? (offers rules m g rows total) = Split.best? (offered rules m g rows total) := by
  rw [← filterMap_offers]
  exact best?_offers_eq_iff.mpr (eq_nil_or_hasLeader ascending_offered h) d whole

end Offered

end Split

end BoostedTrees
