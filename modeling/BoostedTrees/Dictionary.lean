/-!
# Dictionaries

Text keys with a value each, listed in the order of the keys' code points. The list
is part of the type, so two dictionaries with the same entries are equal, and
writing one out needs no sorting.
-/

namespace BoostedTrees

/-- Whether a text comes before another in the order of code points. -/
def comesBefore : List Char → List Char → Bool
  | _, [] => false
  | [], _ :: _ => true
  | a :: as, b :: bs => if a = b then comesBefore as bs else a.toNat < b.toNat

theorem comesBefore_trans {a b c : List Char} (hab : comesBefore a b) (hbc : comesBefore b c) :
    comesBefore a c := by
  induction a generalizing b c with
  | nil => cases c <;> cases b <;> simp_all [comesBefore]
  | cons x xs ih =>
    cases b with
    | nil => simp [comesBefore] at hab
    | cons y ys =>
      cases c with
      | nil => simp [comesBefore] at hbc
      | cons z zs =>
        simp only [comesBefore] at hab hbc ⊢
        by_cases hxy : x = y <;> by_cases hyz : y = z <;> by_cases hxz : x = z <;> subst_vars <;>
          simp_all <;> first
            | exact ih hab hbc
            | omega

theorem comesBefore_of_not {a b : List Char} (h : comesBefore a b = false) (hne : a ≠ b) :
    comesBefore b a := by
  induction a generalizing b with
  | nil => cases b <;> simp_all [comesBefore]
  | cons x xs ih =>
    cases b with
    | nil => simp [comesBefore]
    | cons y ys =>
      simp only [comesBefore] at h ⊢
      by_cases hxy : x = y
      · subst hxy
        simp only [if_true] at h ⊢
        exact ih h fun e => hne (by rw [e])
      · have hval : x.toNat ≠ y.toNat := fun e => hxy (Char.toNat_inj.mp e)
        simp only [hxy, if_false, decide_eq_false_iff_not] at h
        simp only [Ne.symm hxy, if_false, decide_eq_true_eq]
        omega

/-- Values by text keys, in the order of the keys. -/
structure Dictionary (β : Type) where
  entries : List (String × β)
  sorted : entries.Pairwise fun a b => comesBefore a.1.toList b.1.toList

namespace Dictionary

variable {β : Type}

def empty : Dictionary β := ⟨[], .nil⟩

instance : Inhabited (Dictionary β) := ⟨empty⟩

theorem ext {d e : Dictionary β} (h : d.entries = e.entries) : d = e := by
  cases d; cases e; simp_all

/-- Puts an entry in its place of a list, over one with the same key. -/
def place (key : String) (value : β) : List (String × β) → List (String × β)
  | [] => [(key, value)]
  | entry :: rest =>
    if key = entry.1 then (key, value) :: rest
    else if comesBefore key.toList entry.1.toList then (key, value) :: entry :: rest
    else entry :: place key value rest

theorem mem_place {key : String} {value : β} {l : List (String × β)} {e : String × β}
    (h : e ∈ place key value l) : e = (key, value) ∨ e ∈ l := by
  induction l with
  | nil => simpa [place] using h
  | cons entry rest ih =>
    simp only [place] at h
    split at h
    · rcases List.mem_cons.mp h with rfl | h
      · exact .inl rfl
      · exact .inr (List.mem_cons_of_mem _ h)
    · split at h
      · exact (List.mem_cons.mp h).imp id id
      · rcases List.mem_cons.mp h with rfl | h
        · exact .inr List.mem_cons_self
        · exact (ih h).imp id (List.mem_cons_of_mem _)

theorem pairwise_place (key : String) (value : β) {l : List (String × β)}
    (h : l.Pairwise fun a b => comesBefore a.1.toList b.1.toList) :
    (place key value l).Pairwise fun a b => comesBefore a.1.toList b.1.toList := by
  induction l with
  | nil => simp [place]
  | cons entry rest ih =>
    obtain ⟨hentry, hrest⟩ := List.pairwise_cons.mp h
    simp only [place]
    split
    · next heq => exact List.pairwise_cons.mpr ⟨fun e he => heq ▸ hentry e he, hrest⟩
    · next hne =>
      split
      · next hlt =>
        refine List.pairwise_cons.mpr ⟨fun e he => ?_, h⟩
        rcases List.mem_cons.mp he with rfl | he
        · exact hlt
        · exact comesBefore_trans hlt (hentry e he)
      · next hge =>
        refine List.pairwise_cons.mpr ⟨fun e he => ?_, ih hrest⟩
        rcases mem_place he with rfl | he
        · exact comesBefore_of_not (by simpa using hge) fun e => hne (String.toList_inj.mp e)
        · exact hentry e he

/-- The dictionary with a value for a key, which replaces an earlier one. -/
def insert (d : Dictionary β) (key : String) (value : β) : Dictionary β :=
  ⟨place key value d.entries, pairwise_place key value d.sorted⟩

/-- The dictionary without a key. -/
def erase (d : Dictionary β) (key : String) : Dictionary β :=
  ⟨d.entries.filter (·.1 ≠ key), d.sorted.filter _⟩

/-- The value of a key. -/
def get? (d : Dictionary β) (key : String) : Option β :=
  (d.entries.find? (·.1 = key)).map (·.2)

/-- The entries of a list, later ones over earlier ones. -/
def ofList (entries : List (String × β)) : Dictionary β :=
  entries.foldl (fun d e => d.insert e.1 e.2) empty

def keys (d : Dictionary β) : List String := d.entries.map (·.1)

/-! ## Looking up -/

theorem find?_place (key other : String) (value : β) (l : List (String × β)) :
    (place key value l).find? (·.1 = other) =
      if other = key then some (key, value) else l.find? (·.1 = other) := by
  by_cases h : other = key
  · subst h
    induction l with
    | nil => simp [place]
    | cons entry rest ih =>
      simp only [place]
      split
      · simp
      · next hne =>
        split
        · simp
        · simpa [List.find?_cons, Ne.symm hne] using ih
  · induction l with
    | nil => simp [place, h, Ne.symm h]
    | cons entry rest ih =>
      simp only [place]
      split
      · next heq => simp [Ne.symm h, ← heq]
      · split
        · simp [List.find?_cons, Ne.symm h]
        · simp only [List.find?_cons, ih, h, if_false]

@[simp] theorem get?_empty (key : String) : (empty : Dictionary β).get? key = none := rfl

/-- Putting a value in changes what is found for its own key only. -/
theorem get?_insert (d : Dictionary β) (key other : String) (value : β) :
    (d.insert key value).get? other = if other = key then some value else d.get? other := by
  simp only [get?, insert, find?_place]
  split <;> rfl

/-- Taking a key out changes what is found for that key only. -/
theorem get?_erase (d : Dictionary β) (key other : String) :
    (d.erase key).get? other = if other = key then none else d.get? other := by
  simp only [get?, erase, List.find?_filter]
  split
  · next h => simp [h]
  · next h =>
    congr 2
    funext e
    by_cases he : e.1 = other <;> simp [he, h]

end Dictionary

end BoostedTrees
