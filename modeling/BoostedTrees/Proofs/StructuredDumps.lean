import BoostedTrees.Proofs.CutText
import BoostedTrees.Proofs.ModelText
import BoostedTrees.Proofs.ReadableNumbers
import BoostedTrees.Proofs.TreeShapes

/-!
# Structured dumps read again

A structured dump nests two containers for every split that stands above a node: the node of
the split and the list of its children. Containers are read up to a fixed depth only, so a dump
can be read just if no node is deeper than half of that. Then what is read is what was written,
but for the numbers: of each of these the text is read, and a number that is not finite has no
text and is left out.

## Main definitions

* `DumpFields.reread`: what is read of the fields of a node
* `Tree.Shape.shown`: the value that a dump with the form of a shape shows

## Main results

* `DumpFields.fieldsOf?_shownWith`: the fields of a node are read
* `Tree.Shape.ofText?_toNode`: a dump is read just if its shape is not too high
* `Tree.ofText?_dump`: the dump of a valid tree is read just if no node is too deep
-/

namespace BoostedTrees

/-! ## Fields of records -/

namespace Json.Record

variable {depth : Nat} {fields : List (String × Json)} {α : Type}

/-- A field that is given once is found. -/
theorem field?_ofFields (hnodup : (fields.map (·.1)).Nodup) (name : String) (j : Json) :
    (ofFields depth fields).field? name = some j ↔ (name, j) ∈ fields := by
  rw [field?, Option.map_eq_some_iff]
  constructor
  · rintro ⟨⟨found, j⟩, hfind, rfl⟩
    have hname := List.find?_some hfind
    have hmem := List.mem_of_find?_eq_some hfind
    rw [← of_decide_eq_true hname]
    exact List.mem_reverse.mp hmem
  · intro hmem
    cases hfind : (ofFields depth fields).fields.find? (·.1 = name) with
    | none =>
      have hno := List.find?_eq_none.mp hfind (name, j) (List.mem_reverse.mpr hmem)
      exact absurd (decide_eq_true rfl) hno
    | some found =>
      have hname : found.1 = name := by simpa using List.find?_some hfind
      have hfound := List.mem_reverse.mp (List.mem_of_find?_eq_some hfind)
      exact ⟨found, rfl, congrArg Prod.snd (List.inj_on_of_nodup_map hnodup hfound hmem hname)⟩

theorem required_ofFields (hnodup : (fields.map (·.1)).Nodup) {name : String} {j : Json}
    (hmem : (name, j) ∈ fields) (d : Decoder α) :
    (ofFields depth fields).required name d = d depth j := by
  rw [required, (field?_ofFields hnodup name j).mpr hmem]
  rfl

/-- A field that is given just if there is a value is read as what its value is read as. -/
theorem optional_ofFields {β : Type} (hnodup : (fields.map (·.1)).Nodup) {name : String}
    {value : Option β} {shown : β → Json} (hmem : ∀ j, (name, j) ∈ fields ↔ ∃ v ∈ value, j = shown v)
    {d : Decoder α} {read : β → Option α}
    (hread : ∀ v ∈ value, d.optional depth (shown v) = some (read v)) :
    (ofFields depth fields).optional name d = some (value.bind read) := by
  rw [optional]
  cases value with
  | none =>
    have hnone : (ofFields depth fields).field? name = none := by
      refine Option.eq_none_iff_forall_ne_some.mpr fun j hj => ?_
      obtain ⟨v, hv, -⟩ := (hmem j).mp ((field?_ofFields hnodup name j).mp hj)
      cases hv
    rw [hnone]
    rfl
  | some v =>
    have hfield := (@field?_ofFields depth fields hnodup name (shown v)).mpr
      ((hmem (shown v)).mpr ⟨v, rfl, rfl⟩)
    rw [hfield]
    exact hread v rfl

end Json.Record

/-! ## Written nodes -/

namespace DumpNode

mutual

/-- A text behind a node is written as it is. -/
theorem toJsonBefore_eq (n : DumpNode) (after : List Char) :
    n.toJsonBefore after = n.toJson ++ after := by
  match n with
  | .node f [] => simp [toJson, toJsonBefore]
  | .node f (child :: more) =>
    have hchild := toJsonBefore_eq child
    have hmore := moreToJsonBefore_eq more
    simp only [toJson, toJsonBefore, List.cons_append, List.append_assoc]
    rw [hmore, hmore, hchild, hchild]
    simp

theorem moreToJsonBefore_eq (more : List DumpNode) (after : List Char) :
    moreToJsonBefore more after = more.flatMap (fun child => ',' :: child.toJson) ++ after := by
  match more with
  | [] => rfl
  | child :: more =>
    have hchild := toJsonBefore_eq child
    have hmore := moreToJsonBefore_eq more
    rw [moreToJsonBefore, hchild, hmore]
    simp

end

theorem toJson_leaf (f : DumpFields) : (node f []).toJson = Json.Writer.object (scalarMembers f) := by
  rw [toJson, toJsonBefore, List.append_nil]

/-- A node with two children is written as an object with one more member. -/
theorem toJson_pair (f : DumpFields) (left right : DumpNode) :
    (node f [left, right]).toJson = Json.Writer.object (scalarMembers f ++
      [("children", Json.Writer.array [left.toJson, right.toJson])]) := by
  have hmembers : ∀ (first : String × List Char) (rest : List (String × List Char)) name value,
      Json.Writer.members (first :: rest ++ [(name, value)]) =
        Json.Writer.members (first :: rest) ++ ',' :: (Json.Writer.string name ++ ':' :: value) := by
    intro first rest name value
    simp only [Json.Writer.members, Json.Writer.commas, List.cons_append, List.map_cons,
      List.map_append, List.map_nil, Text.intercalate_cons_eq, List.flatMap_append,
      List.flatMap_cons, List.flatMap_nil, List.append_nil, List.append_assoc]
  have hfirst : scalarMembers f = ("nodeid", Json.Writer.nat f.id.toNat) ::
      (scalarMembers f).tail := rfl
  rw [toJson, toJsonBefore, moreToJsonBefore_eq, toJsonBefore_eq, Json.Writer.object, hfirst,
    hmembers]
  simp [Json.Writer.array, Json.Writer.commas]

end DumpNode

/-! ## Fields of nodes -/

namespace Json.Decoder

/-- A value that is not null is read as if it could not be absent. -/
theorem optional_eq {α : Type} {d : Decoder α} {depth : Nat} {j : Json} {a : α}
    (h : d depth j = some a) (hnull : j ≠ .null) : d.optional depth j = some (some a) := by
  unfold optional
  split
  · exact absurd rfl hnull
  · rw [h]
    rfl

theorem optional_double {x : Double} (h : x.Readable) (depth : Nat) :
    optional double depth (doubleShown x) = some x.reread? := by
  have hread := double_doubleShown depth x
  by_cases hfinite : x.isFinite
  · obtain ⟨y, hy⟩ := h hfinite
    rw [hy] at hread ⊢
    refine optional_eq hread ?_
    rw [doubleShown, if_pos hfinite]
    exact fun hnull => Json.noConfusion hnull
  · rw [← hread, doubleShown, if_neg hfinite]
    rfl

theorem optional_single (depth : Nat) (x : Single) :
    optional single depth (singleShown x) = some x.reread? := by
  have hread := single_singleShown depth x
  by_cases hfinite : x.isFinite
  · obtain ⟨y, hy⟩ := Single.exists_reread?_eq hfinite
    rw [hy] at hread ⊢
    refine optional_eq hread ?_
    rw [singleShown, if_pos hfinite]
    exact fun hnull => Json.noConfusion hnull
  · rw [← hread, singleShown, if_neg hfinite]
    rfl

end Json.Decoder

namespace DumpFields

variable (f : DumpFields)

/-- What is read of the fields: all that they say, but every number is read from its text. -/
def reread : DumpFields :=
  { f with
    splitCondition := f.splitCondition.bind Single.reread?
    gain := f.gain.bind Double.reread?
    cover := f.cover.bind Double.reread?
    leaf := f.leaf.bind Single.reread? }

/-- A member that is left out where there is no value: what is written for it, and what that
shows. -/
def member {α : Type} (name : String) (write : α → List Char) (shown : α → Json)
    (value : Option α) : List (String × List Char × Json) :=
  (value.map fun v => (name, write v, shown v)).toList

/-- The members of a node beside its children: what is written for them, and what that shows. -/
def shownMembers : List (String × List Char × Json) :=
  let word (n : UInt32) := Json.Writer.nat n.toNat
  ("nodeid", word f.id, Json.wordShown f.id) ::
    (member "depth" word Json.wordShown f.depth ++
      member "split" Json.Writer.string (fun t => .string (Json.lexeme t)) f.split ++
      member "split_condition" Json.Writer.single Json.singleShown f.splitCondition ++
      member "yes" word Json.wordShown f.yes ++ member "no" word Json.wordShown f.no ++
      member "missing" word Json.wordShown f.missing ++
      member "gain" Json.Writer.double Json.doubleShown f.gain ++
      member "cover" Json.Writer.double Json.doubleShown f.cover ++
      member "leaf" Json.Writer.single Json.singleShown f.leaf)

/-- The fields of a node beside its children. -/
def shown : List (String × Json) := f.shownMembers.map fun m => (m.1, m.2.2)

theorem map_shownMembers : (f.shownMembers.map fun m => (m.1, m.2.1)) = DumpNode.scalarMembers f := by
  have hmember : ∀ {α : Type} (name : String) (write : α → List Char) (shown : α → Json)
      (value : Option α), ((member name write shown value).map fun m => (m.1, m.2.1)) =
        (value.map fun v => (name, write v)).toList := by
    intro α name write shown value
    cases value <;> rfl
  simp only [shownMembers, DumpNode.scalarMembers, List.map_cons, List.map_append, hmember]

theorem forall_shownMembers : ∀ m ∈ f.shownMembers, Json.Shows (Json.bytesOf m.2.1) m.2.2 := by
  have hmember : ∀ {α : Type} {name : String} {write : α → List Char} {shown : α → Json}
      {value : Option α}, (∀ v, Json.Shows (Json.bytesOf (write v)) (shown v)) →
        ∀ m ∈ member name write shown value, Json.Shows (Json.bytesOf m.2.1) m.2.2 := by
    intro α name write shown value h m hm
    cases value with
    | none => cases hm
    | some v =>
      rw [List.mem_singleton.mp hm]
      exact h v
  have hword : ∀ n : UInt32, Json.Shows (Json.bytesOf (Json.Writer.nat n.toNat)) (Json.wordShown n) :=
    fun n => Json.shows_nat n.toNat
  simp only [shownMembers, List.forall_mem_cons, List.forall_mem_append]
  exact ⟨hword f.id, ⟨⟨⟨⟨⟨⟨⟨⟨hmember hword, hmember Json.shows_string⟩, hmember Json.shows_single⟩,
    hmember hword⟩, hmember hword⟩, hmember hword⟩, hmember Json.shows_double⟩,
    hmember Json.shows_double⟩, hmember Json.shows_single⟩⟩

/-- The fields of a node with its children, if it has any. -/
def shownWith (children : Option Json) : List (String × Json) :=
  f.shown ++ (children.map fun j => ("children", j)).toList

theorem mem_map_member {α : Type} {name name' : String} {write : α → List Char} {shown : α → Json}
    {value : Option α} {j : Json} :
    (name, j) ∈ (member name' write shown value).map (fun m => (m.1, m.2.2)) ↔
      name = name' ∧ ∃ v ∈ value, j = shown v := by
  cases value with
  | none => simp [member]
  | some v => simp [member]

theorem mem_shownWith {children : Option Json} {name : String} {j : Json} :
    (name, j) ∈ f.shownWith children ↔ name = "nodeid" ∧ j = Json.wordShown f.id ∨
      name = "depth" ∧ (∃ v ∈ f.depth, j = Json.wordShown v) ∨
      name = "split" ∧ (∃ v ∈ f.split, j = .string (Json.lexeme v)) ∨
      name = "split_condition" ∧ (∃ v ∈ f.splitCondition, j = Json.singleShown v) ∨
      name = "yes" ∧ (∃ v ∈ f.yes, j = Json.wordShown v) ∨
      name = "no" ∧ (∃ v ∈ f.no, j = Json.wordShown v) ∨
      name = "missing" ∧ (∃ v ∈ f.missing, j = Json.wordShown v) ∨
      name = "gain" ∧ (∃ v ∈ f.gain, j = Json.doubleShown v) ∨
      name = "cover" ∧ (∃ v ∈ f.cover, j = Json.doubleShown v) ∨
      name = "leaf" ∧ (∃ v ∈ f.leaf, j = Json.singleShown v) ∨
      name = "children" ∧ children = some j := by
  have hchildren : (name, j) ∈ (children.map fun j => ("children", j)).toList ↔
      name = "children" ∧ children = some j := by
    cases children with
    | none => simp
    | some k => simp [eq_comm]
  simp only [shownWith, shown, shownMembers, List.map_cons, List.map_append, List.mem_append,
    List.mem_cons, mem_map_member, hchildren, Prod.mk.injEq, or_assoc]

/-- Fields stand in the order of their names, each at most once. -/
theorem sublist_fieldNames (children : Option Json) :
    ((f.shownWith children).map (·.1)).Sublist DumpNode.fieldNames := by
  have hmember : ∀ {α : Type} (name : String) (write : α → List Char) (shown : α → Json)
      (value : Option α), (((member name write shown value).map fun m => (m.1, m.2.2)).map
        (·.1)).Sublist [name] := by
    intro α name write shown value
    cases value with
    | none => exact List.nil_sublist _
    | some v => exact List.Sublist.refl _
  have hchildren : (((children.map fun j => ("children", j)).toList).map (·.1)).Sublist
      ["children"] := by
    cases children with
    | none => exact List.nil_sublist _
    | some j => exact List.Sublist.refl _
  have hnames : DumpNode.fieldNames = "nodeid" :: (["depth"] ++ ["split"] ++ ["split_condition"] ++
      ["yes"] ++ ["no"] ++ ["missing"] ++ ["gain"] ++ ["cover"] ++ ["leaf"]) ++ ["children"] := rfl
  rw [hnames]
  simp only [shownWith, shown, shownMembers, List.map_append, List.map_cons]
  refine .append (.cons_cons _ ?_) hchildren
  exact (((((((((hmember _ _ _ _).append (hmember _ _ _ _)).append (hmember _ _ _ _)).append
    (hmember _ _ _ _)).append (hmember _ _ _ _)).append (hmember _ _ _ _)).append
    (hmember _ _ _ _)).append (hmember _ _ _ _)).append (hmember _ _ _ _))

theorem nodup_shownWith (children : Option Json) :
    ((f.shownWith children).map (·.1)).Nodup :=
  (f.sublist_fieldNames children).nodup (by decide)

/-! ### Reading them -/

section Reading

variable {f} {depth : Nat} {children : Option Json} {name : String}

/-- What a name stands for is read if it is not null. -/
theorem optional_shownWith {α β : Type} {shown : α → Json} {value : Option α}
    (h : ∀ j, (name, j) ∈ f.shownWith children ↔ ∃ v ∈ value, j = shown v)
    {d : Json.Decoder β} {read : α → Option β}
    (hread : ∀ v ∈ value, d.optional depth (shown v) = some (read v)) :
    (Json.Record.ofFields depth (f.shownWith children)).optional name d =
      some (value.bind read) :=
  Json.Record.optional_ofFields (f.nodup_shownWith children) h hread

theorem optional_word {value : Option UInt32}
    (h : ∀ j, (name, j) ∈ f.shownWith children ↔ ∃ v ∈ value, j = Json.wordShown v) :
    (Json.Record.ofFields depth (f.shownWith children)).optional name Json.Decoder.uint32 =
      some value := by
  rw [optional_shownWith h fun v _ =>
    Json.Decoder.optional_eq (Json.Decoder.uint32_digitBytes v) nofun, Option.bind_fun_some]

theorem optional_text {value : Option String}
    (h : ∀ j, (name, j) ∈ f.shownWith children ↔ ∃ v ∈ value, j = .string (Json.lexeme v)) :
    (Json.Record.ofFields depth (f.shownWith children)).optional name Json.Decoder.text =
      some value := by
  rw [optional_shownWith h fun v _ =>
    Json.Decoder.optional_eq (Json.Decoder.text_lexeme v) nofun, Option.bind_fun_some]

theorem optional_reread {value : Option Single}
    (h : ∀ j, (name, j) ∈ f.shownWith children ↔ ∃ v ∈ value, j = Json.singleShown v) :
    (Json.Record.ofFields depth (f.shownWith children)).optional name Json.Decoder.single =
      some (value.bind Single.reread?) :=
  optional_shownWith h fun v _ => Json.Decoder.optional_single depth v

theorem optional_statistic {value : Option Double} (hvalue : ∀ x ∈ value, x.Readable)
    (h : ∀ j, (name, j) ∈ f.shownWith children ↔ ∃ v ∈ value, j = Json.doubleShown v) :
    (Json.Record.ofFields depth (f.shownWith children)).optional name Json.Decoder.double =
      some (value.bind Double.reread?) :=
  optional_shownWith h fun v hv => Json.Decoder.optional_double (hvalue v hv) depth

variable (f depth children)

/-- The fields of a node are read from its record. -/
theorem fieldsOf?_shownWith (hgain : ∀ x ∈ f.gain, x.Readable)
    (hcover : ∀ x ∈ f.cover, x.Readable) :
    DumpNode.fieldsOf? (Json.Record.ofFields depth (f.shownWith children)) = some f.reread := by
  -- Every name stands for its own field, and no other does.
  have hmem := fun name j => @mem_shownWith f children name j
  have hid : (Json.Record.ofFields depth (f.shownWith children)).required "nodeid"
      Json.Decoder.uint32 = some f.id := by
    rw [Json.Record.required_ofFields (f.nodup_shownWith children)
      (List.mem_append_left _ List.mem_cons_self)]
    exact Json.Decoder.uint32_digitBytes f.id
  have hdepth := @optional_word f depth children "depth" f.depth fun j => by simp [hmem]
  have hsplit := @optional_text f depth children "split" f.split fun j => by simp [hmem]
  have hcondition := @optional_reread f depth children "split_condition" f.splitCondition
    fun j => by simp [hmem]
  have hyes := @optional_word f depth children "yes" f.yes fun j => by simp [hmem]
  have hno := @optional_word f depth children "no" f.no fun j => by simp [hmem]
  have hmissing := @optional_word f depth children "missing" f.missing fun j => by simp [hmem]
  have hgain := @optional_statistic f depth children "gain" f.gain hgain fun j => by simp [hmem]
  have hcover := @optional_statistic f depth children "cover" f.cover hcover
    fun j => by simp [hmem]
  have hleaf := @optional_reread f depth children "leaf" f.leaf fun j => by simp [hmem]
  simp only [DumpNode.fieldsOf?, hid, hdepth, hsplit, hcondition, hyes, hno, hmissing, hgain,
    hcover, hleaf, Option.bind_eq_bind, Option.bind_some, Option.pure_def, reread]

theorem field?_children :
    (Json.Record.ofFields depth (f.shownWith children)).field? "children" = children := by
  refine Option.ext fun j => ?_
  rw [Json.Record.field?_ofFields (f.nodup_shownWith children), mem_shownWith]
  simp

theorem ofJson?_shownWith :
    Json.Record.ofJson? DumpNode.fieldNames (depth + 1) (Json.recordOf (f.shownWith children)) =
      some (Json.Record.ofFields depth (f.shownWith children)) :=
  Json.Record.ofJson?_recordOf depth
    (fun _ hmem => (f.sublist_fieldNames children).subset (List.mem_map_of_mem hmem))
    (f.nodup_shownWith children)

end Reading

end DumpFields

namespace DumpNode

variable {f : DumpFields} (hgain : ∀ x ∈ f.gain, x.Readable) (hcover : ∀ x ∈ f.cover, x.Readable)
include hgain hcover

/-- A node without children takes one container. -/
theorem ofJson_childless (containers : Nat) :
    ofJson (containers + 1) (Json.recordOf (f.shownWith none)) = some (.node f.reread []) := by
  rw [ofJson, f.ofJson?_shownWith]
  dsimp only
  rw [f.fieldsOf?_shownWith containers none hgain hcover, f.field?_children]

/-- A node with children takes two. -/
theorem ofJson_pair (containers : Nat) (left right : Json) :
    ofJson (containers + 1) (Json.recordOf (f.shownWith (some (.array [left, right])))) =
      if containers = 0 then none
      else (ofJson (containers - 1) left).bind fun left =>
        (ofJson (containers - 1) right).map fun right => .node f.reread [left, right] := by
  rw [ofJson, f.ofJson?_shownWith]
  dsimp only
  rw [f.fieldsOf?_shownWith containers _ hgain hcover, f.field?_children]
  cases containers with
  | zero => rfl
  | succ containers =>
    rw [if_neg containers.succ_ne_zero, Nat.add_sub_cancel]
    dsimp only
    rw [List.mapM_cons, List.mapM_cons, List.mapM_nil]
    cases ofJson containers left with
    | none => rfl
    | some left => cases ofJson containers right <;> rfl

end DumpNode

/-! ## Nodes within nodes -/

namespace Tree.Shape

variable (fields : Shape → (depth : Nat) → DumpFields)

/-- The value that a dump with the form of a shape shows. -/
def shown : Shape → (depth : Nat) → Json
  | leaf i, depth => Json.recordOf ((fields (leaf i) depth).shownWith none)
  | split i left right, depth =>
    Json.recordOf ((fields (split i left right) depth).shownWith
      (some (.array [left.shown (depth + 1), right.shown (depth + 1)])))

theorem shows_toNode (s : Shape) (depth : Nat) :
    Json.Shows (Json.bytesOf (s.toNode fields depth).toJson) (s.shown fields depth) := by
  induction s generalizing depth with
  | leaf i =>
    have hshows := Json.shows_recordOf _ (fields (leaf i) depth).forall_shownMembers
    rw [DumpFields.map_shownMembers] at hshows
    rw [toNode, DumpNode.toJson_leaf, shown, DumpFields.shownWith, Option.map_none,
      Option.toList_none, List.append_nil]
    exact hshows
  | split i left right hleft hright =>
    have hchildren : Json.Shows
        (Json.bytesOf (Json.Writer.array [(left.toNode fields (depth + 1)).toJson,
          (right.toNode fields (depth + 1)).toJson]))
        (.array [left.shown fields (depth + 1), right.shown fields (depth + 1)]) :=
      Json.shows_array Prod.fst Prod.snd
        [((left.toNode fields (depth + 1)).toJson, left.shown fields (depth + 1)),
          ((right.toNode fields (depth + 1)).toJson, right.shown fields (depth + 1))]
        (List.forall_mem_cons.mpr ⟨hleft _, List.forall_mem_singleton.mpr (hright _)⟩)
    have hmembers := List.forall_mem_append.mpr
      ⟨(fields (split i left right) depth).forall_shownMembers,
        List.forall_mem_singleton (a := ("children", _, _)).mpr hchildren⟩
    have hshows := Json.shows_recordOf _ hmembers
    rw [List.map_append, List.map_append, DumpFields.map_shownMembers] at hshows
    rw [toNode, DumpNode.toJson_pair]
    exact hshows

variable (hfields : ∀ s depth, (∀ x ∈ (fields s depth).gain, x.Readable) ∧
  ∀ x ∈ (fields s depth).cover, x.Readable)
include hfields

/-- What a dump shows is read just if there is room for the two containers of every split above
the lowest leaf and for the one of the leaf. -/
theorem ofJson_shown (s : Shape) (containers depth : Nat) :
    DumpNode.ofJson containers (s.shown fields depth) =
      if 2 * s.height + 1 ≤ containers then
        some (s.toNode (fun s depth => (fields s depth).reread) depth)
      else none := by
  induction s generalizing containers depth with
  | leaf i =>
    obtain ⟨hgain, hcover⟩ := hfields (leaf i) depth
    cases containers with
    | zero => rfl
    | succ containers =>
      rw [shown, DumpNode.ofJson_childless hgain hcover, height, if_pos (by omega)]
      rfl
  | split i left right hleft hright =>
    obtain ⟨hgain, hcover⟩ := hfields (split i left right) depth
    rw [shown, height]
    cases containers with
    | zero => rfl
    | succ containers =>
      rw [DumpNode.ofJson_pair hgain hcover, hleft, hright]
      by_cases hroom : 2 * (max left.height right.height + 1) + 1 ≤ containers + 1
      · rw [if_pos hroom, if_neg (by omega), if_pos (by omega), if_pos (by omega)]
        rfl
      · rw [if_neg hroom]
        -- One of the children lacks room, or even the list of them.
        by_cases hbelow : 2 * left.height + 1 ≤ containers - 1
        · by_cases hlist : containers = 0
          · rw [if_pos hlist]
          · rw [if_neg hlist, if_pos hbelow, if_neg (by omega)]
            rfl
        · rw [if_neg hbelow]
          split <;> rfl

/-- A dump is read just if no node is deeper than half of the containers that may be nested. -/
theorem ofText?_toNode (s : Shape) (depth : Nat) :
    DumpNode.ofText? (String.ofList (s.toNode fields depth).toJson) =
      if s.height ≤ 63 then some (s.toNode (fun s depth => (fields s depth).reread) depth)
      else none := by
  have hparse := Json.parse_of_shows (shows_toNode fields s depth)
  have hread := ofJson_shown fields hfields s Json.maxDepth depth
  have hheight : 2 * s.height + 1 ≤ Json.maxDepth ↔ s.height ≤ 63 := by
    rw [Json.maxDepth]
    omega
  rw [DumpNode.ofText?, Json.decode, Text.utf8_ofList]
  show (Json.parse (Json.bytesOf _)).bind _ = _
  rw [hparse, Option.bind_some, hread]
  simp only [hheight]

end Tree.Shape

namespace Tree

variable {t : Tree} {features : UInt64}

theorem readable_fieldsAt (t : Tree) (map : FeatureMap) (statistics : Bool) (s : Shape)
    (depth : Nat) : (∀ x ∈ (t.fieldsAt map statistics s depth).gain, x.Readable) ∧
      ∀ x ∈ (t.fieldsAt map statistics s depth).cover, x.Readable := by
  have hstatistic : ∀ y : Single, ∀ x ∈ shownStatistic statistics y, x.Readable := by
    intro y x hx
    cases statistics with
    | false => cases hx
    | true =>
      cases hx
      exact y.readable_toDouble
  cases s with
  | leaf i => exact ⟨nofun, hstatistic _⟩
  | split i left right => exact ⟨hstatistic _, hstatistic _⟩

/-- The structured dump of a valid tree is read just if no node is too deep. -/
theorem ofText?_dump (h : t.validate features = .ok ()) (map : FeatureMap) (statistics : Bool) :
    ∃ s, t.Unfolds 0 s ∧ s.places.Perm (List.range t.size) ∧
      DumpNode.ofText? (t.dump map statistics .json) =
        if s.height ≤ 63 then
          some (s.toNode (fun s depth => (t.fieldsAt map statistics s depth).reread) 0)
        else none := by
  obtain ⟨s, hs, hplaces⟩ := exists_shape_of_validate h
  refine ⟨s, hs, hplaces, ?_⟩
  rw [dump, hs.dumpNode_eq hplaces]
  exact Shape.ofText?_toNode _ (t.readable_fieldsAt map statistics) s 0

end Tree

end BoostedTrees
