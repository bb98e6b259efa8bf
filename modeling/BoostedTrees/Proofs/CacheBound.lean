import BoostedTrees.Proofs.CacheInvariants
import Mathlib.Data.Finset.Card

/-!
# How many matrices are remembered

A cache is told apart by the numbers of its matrices. Training adds the number of its matrix
if it is new, and a full cache gives up its smallest number for it. Nothing else adds a
number, so a cache never grows beyond its capacity. The matrices that a learner is created
with are all remembered, however many they are, and a cache that starts out larger than its
capacity stays that large until it is emptied.

## Main definitions

* `MarginCache.ids`: the numbers of the matrices that are remembered
* `MarginCache.Admits`: what training on a matrix may do to these numbers

## Main results

* `Learner.cache_entries_le`: the bound on the entries at the end of every history, that it
  is the capacity just if not too many matrices were there at the start, and which matrix a
  full cache gives up
-/

namespace BoostedTrees

open EngineM

namespace MarginCache

variable {c : MarginCache} {e : RememberedSums} {id : Nat}

/-- The numbers of the matrices that are remembered. -/
def ids (c : MarginCache) : Finset Nat := (c.entries.map (·.matrix)).toFinset

/-- No matrix has two entries. -/
def Distinct (c : MarginCache) : Prop := (c.entries.map (·.matrix)).Nodup

theorem mem_ids : id ∈ c.ids ↔ ∃ e ∈ c.entries, e.matrix = id := by
  rw [ids, List.mem_toFinset, List.mem_map]

theorem Distinct.card_ids (h : c.Distinct) : c.ids.card = c.entries.length := by
  rw [ids, List.toFinset_card_of_nodup h, List.length_map]

theorem find?_eq_none_iff : c.find? id = none ↔ id ∉ c.ids := by
  simp only [find?, List.find?_eq_none, decide_eq_true_eq, mem_ids, not_exists, not_and]

@[simp] theorem ids_empty : empty.ids = ∅ := rfl

theorem ids_erase : (c.erase id).ids = c.ids.erase id := by
  ext i
  simp only [mem_ids, erase, Finset.mem_erase, List.mem_filter, decide_eq_true_eq]
  constructor
  · rintro ⟨e, ⟨he, hne⟩, rfl⟩
    exact ⟨hne, e, he, rfl⟩
  · rintro ⟨hne, e, he, rfl⟩
    exact ⟨e, ⟨he, hne⟩, rfl⟩

theorem ids_put : (c.put e).ids = insert e.matrix c.ids := by
  have hcons : (c.put e).ids = insert e.matrix (c.erase e.matrix).ids := by
    simp only [ids, put, List.map_cons, List.toFinset_cons]
  rw [hcons, ids_erase]
  by_cases h : e.matrix ∈ c.ids
  · rw [Finset.insert_erase h, Finset.insert_eq_self.mpr h]
  · rw [Finset.erase_eq_of_notMem h]

/-! ## Every matrix has one entry -/

theorem Distinct.erase (h : c.Distinct) (id : Nat) : (c.erase id).Distinct :=
  h.sublist (List.filter_sublist.map _)

theorem Distinct.put (h : c.Distinct) (e : RememberedSums) : (c.put e).Distinct := by
  refine List.nodup_cons.mpr ⟨fun hmem => ?_, h.erase e.matrix⟩
  obtain ⟨x, hx, heq⟩ := List.mem_map.mp hmem
  have hne : x.matrix ≠ e.matrix := by simpa using (List.mem_filter.mp hx).2
  exact hne heq

theorem Distinct.withRoom (h : c.Distinct) : c.withRoom.Distinct := by
  unfold MarginCache.withRoom
  split
  · exact h
  · split
    · exact h.erase _
    · exact h

theorem stable_distinct : Stable Distinct where
  empty := List.nodup_nil
  brought _ _ hc _ := hc.put _
  taken _ _ hc _ := hc.withRoom.put _

theorem distinct_ids_ofMatrices (ms : List Matrix) :
    (ofMatrices ms).Distinct ∧ (ofMatrices ms).ids = (ms.map (·.id)).toFinset := by
  suffices h : ∀ (ms : List Matrix) (c : MarginCache), c.Distinct →
      (ms.foldl (fun c m => c.put (.start m)) c).Distinct ∧
        (ms.foldl (fun c m => c.put (.start m)) c).ids = (ms.map (·.id)).toFinset ∪ c.ids by
    have h := h ms .empty stable_distinct.empty
    rwa [ids_empty, Finset.union_empty] at h
  intro ms
  induction ms with
  | nil =>
    intro c hc
    exact ⟨hc, (Finset.empty_union _).symm⟩
  | cons m ms ih =>
    intro c hc
    obtain ⟨hdistinct, hids⟩ := ih _ (hc.put (.start m))
    refine ⟨hdistinct, hids.trans ?_⟩
    rw [ids_put, List.map_cons, List.toFinset_cons, Finset.insert_union, Finset.union_insert]
    rfl

/-! ## Making room -/

/-- What asking for the sums of a matrix and remembering them does to the numbers. -/
inductive Admits (id : Nat) (before after : Finset Nat) : Prop where
  /-- The matrix is remembered already, or the request is refused. -/
  | same (h : after = before)
  | added (hnew : id ∉ before) (hroom : before.card < capacity) (h : after = insert id before)
  /-- There is no room, so the smallest number goes. -/
  | replaced (oldest : Nat) (hnew : id ∉ before) (hfull : capacity ≤ before.card)
      (hmem : oldest ∈ before) (hleast : ∀ i ∈ before, oldest ≤ i)
      (h : after = insert id (before.erase oldest))

namespace Admits

variable {before after : Finset Nat}

theorem eq_of_mem (h : Admits id before after) (hmem : id ∈ before) : after = before := by
  cases h with
  | same h => exact h
  | added hnew => exact absurd hmem hnew
  | replaced _ hnew => exact absurd hmem hnew

theorem mem (h : Admits id before after) (hne : after ≠ before) : id ∈ after := by
  cases h with
  | same h => exact absurd h hne
  | added _ _ h => exact h ▸ Finset.mem_insert_self _ _
  | replaced _ _ _ _ _ h => exact h ▸ Finset.mem_insert_self _ _

/-- A matrix that was admitted is not admitted again. -/
theorem trans {later : Finset Nat} (h : Admits id before after) (h' : Admits id after later) :
    Admits id before later := by
  by_cases heq : after = before
  · exact heq ▸ h'
  · rw [h'.eq_of_mem (h.mem heq)]
    exact h

theorem card_le (h : Admits id before after) : after.card ≤ max capacity before.card := by
  cases h with
  | same h => exact h ▸ Nat.le_max_right _ _
  | added hnew hroom h =>
    rw [h, Finset.card_insert_of_notMem hnew]
    exact Nat.le_trans hroom (Nat.le_max_left _ _)
  | replaced oldest hnew hfull hmem hleast h =>
    have hpos : 0 < before.card := Finset.card_pos.mpr ⟨oldest, hmem⟩
    have hle : after.card ≤ (before.erase oldest).card + 1 := h ▸ Finset.card_insert_le _ _
    rw [Finset.card_erase_of_mem hmem] at hle
    omega

end Admits

theorem admits_taken {m : Matrix} (hc : c.Distinct) (hfind : c.find? m.id = none) (f : Forest)
    (outputs : Nat) : Admits m.id c.ids (c.withRoom.put (.taken f outputs m)).ids := by
  have hnew : m.id ∉ c.ids := find?_eq_none_iff.mp hfind
  rw [ids_put, RememberedSums.matrix_taken, withRoom]
  split
  · next hroom => exact .added hnew (hc.card_ids ▸ hroom) rfl
  · next hfull =>
    have hfull : capacity ≤ c.ids.card := hc.card_ids ▸ Nat.le_of_not_lt hfull
    cases hold : c.oldest? with
    | none =>
      -- Only an empty cache has no oldest matrix, and that one has room.
      have hnil : c.entries = [] := by simpa only [oldest?, List.min?_eq_none_iff,
        List.map_eq_nil_iff] using hold
      rw [hc.card_ids, hnil] at hfull
      exact absurd hfull (by decide)
    | some oldest =>
      obtain ⟨hmem, hleast⟩ := List.min?_eq_some_iff.mp hold
      refine .replaced oldest hnew hfull (List.mem_toFinset.mpr hmem) ?_ (by rw [ids_erase])
      intro i hi
      exact hleast i (List.mem_toFinset.mp hi)

/-- Entries that are as many as the capacity allows, or as there are at the start. -/
theorem stable_card_le (n : Nat) :
    Stable fun c => c.Distinct ∧ c.ids.card ≤ max capacity n where
  empty := ⟨stable_distinct.empty, Nat.zero_le _⟩
  brought f houtputs hc hfind := by
    obtain ⟨hmem, hid⟩ := mem_of_find? hfind
    refine ⟨stable_distinct.brought f houtputs hc.1 hfind, ?_⟩
    rw [ids_put, RememberedSums.matrix_brought hid,
      Finset.insert_eq_self.mpr (mem_ids.mpr ⟨_, hmem, hid⟩)]
    exact hc.2
  taken f houtputs hc hfind := by
    refine ⟨stable_distinct.taken f houtputs hc.1 hfind, (admits_taken hc.1 hfind f _).card_le.trans ?_⟩
    exact Nat.max_le.mpr ⟨Nat.le_max_left _ _, hc.2⟩

end MarginCache

namespace Learner

open BoostedTrees.MarginCache (Admits Stable)

variable {l : Learner}

/-! ## Training -/

theorem admits_treeSums (hl : l.cache.Distinct) (m : Matrix) :
    Admits m.id l.cache.ids (treeSums m true l).2.cache.ids := by
  rw [treeSums_apply]
  cases hfind : l.cache.find? m.id with
  | some e =>
    obtain ⟨hmem, hid⟩ := MarginCache.mem_of_find? hfind
    refine .same (MarginCache.ids_put.trans ?_)
    rw [RememberedSums.matrix_brought hid]
    exact Finset.insert_eq_self.mpr (MarginCache.mem_ids.mpr ⟨e, hmem, hid⟩)
  | none =>
    exact MarginCache.admits_taken hl hfind l.forest l.outputs

/-- The numbers are those of a start, or what training on the matrix may make of them. -/
def AdmitsFrom (start : Finset Nat) (m : Matrix) (c : MarginCache) : Prop :=
  c.Distinct ∧ Admits m.id start c.ids

section Training

variable {start : Finset Nat} (m : Matrix)

theorem keeps_admitsFrom_treeSums :
    Stable.Keeps (AdmitsFrom start m) (liftM (treeSums m true) : LearnerM (Array Single)) := by
  intro l hl
  refine ⟨MarginCache.stable_distinct.keeps_treeSums m true l hl.1, ?_⟩
  rw [lift_apply]
  exact hl.2.trans (admits_treeSums hl.1 m)

theorem keeps_admitsFrom_boost (iteration : Int32) (g : Gradient) :
    Stable.Keeps (AdmitsFrom start m) (boost iteration m g) := by
  refine .bind .get fun l => ?_
  dsimp only
  split
  · exact .throw _
  · refine .bind (.check _) fun _ => .bind (Stable.keeps_fixFeatures m) fun _ => ?_
    exact .bind (.modify fun _ hl => hl) fun _ => .bind (keeps_admitsFrom_treeSums m) fun _ => .pure _

theorem keeps_admitsFrom_update (iteration : Int32) :
    Stable.Keeps (AdmitsFrom start m) (update iteration m) := by
  refine .bind (.check _) fun _ => .bind (Stable.keeps_fixFeatures m) fun _ => ?_
  have hmargins : Stable.Keeps (AdmitsFrom start m) (margins m true) :=
    .bind (.check _) fun _ => .bind (keeps_admitsFrom_treeSums m) fun _ => .pure _
  exact .bind hmargins fun _ => .bind .get fun _ => keeps_admitsFrom_boost m iteration _

end Training

/-! ## All histories -/

/-- After every history each matrix has one entry, and there are no more entries than the
capacity allows or than there were matrices at the start. The capacity itself is a bound
just if it is one at the start. A round of training on a matrix that is not remembered
gives up no matrix as long as there is room, and otherwise the one with the smallest
number. -/
theorem cache_entries_le (created : List Matrix) :
    (∀ os, ((create created).after os).cache.Distinct ∧
      ((create created).after os).cache.entries.length ≤
        max MarginCache.capacity (created.map (·.id)).toFinset.card) ∧
    ((∀ os, ((create created).after os).cache.entries.length ≤ MarginCache.capacity) ↔
      (created.map (·.id)).toFinset.card ≤ MarginCache.capacity) ∧
    ∀ os iteration m,
      Admits m.id ((create created).after os).cache.ids
        (update iteration m ((create created).after os)).2.cache.ids ∧
      ∀ g, Admits m.id ((create created).after os).cache.ids
        (boost iteration m g ((create created).after os)).2.cache.ids := by
  obtain ⟨hdistinct, hids⟩ := MarginCache.distinct_ids_ofMatrices created
  have hcard := congrArg Finset.card hids
  have hafter := fun os =>
    (MarginCache.stable_card_le (created.map (·.id)).toFinset.card).after (l := create created)
      ⟨hdistinct, hcard ▸ Nat.le_max_right _ _⟩ os
  have hle : ∀ os, ((create created).after os).cache.entries.length ≤
      max MarginCache.capacity (created.map (·.id)).toFinset.card :=
    fun os => (hafter os).1.card_ids ▸ (hafter os).2
  refine ⟨fun os => ⟨(hafter os).1, hle os⟩, ⟨fun h => ?_, fun h os => ?_⟩, fun os iteration m => ?_⟩
  · have hstart := h []
    rw [← hcard, hdistinct.card_ids]
    exact hstart
  · have hle := hle os
    omega
  · have hstart : AdmitsFrom ((create created).after os).cache.ids m
        ((create created).after os).cache := ⟨(hafter os).1, .same rfl⟩
    exact ⟨(keeps_admitsFrom_update m iteration _ hstart).2,
      fun g => (keeps_admitsFrom_boost m iteration g _ hstart).2⟩

end Learner

end BoostedTrees
