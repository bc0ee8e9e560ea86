import LocatedYaml.Proofs.Conversion.Basic
import LocatedYaml.Proofs.Node.Inside
import Mathlib.Data.Finset.Card
import Mathlib.Data.Finset.Lattice.Fold
import Mathlib.Order.Lattice.Nat

/-!
# Conversion under a bound on nested calls

`Bounded.ofNode` and `Bounded.nameOf` convert by any look-up of anchors: a node enters its own anchor, an alias calls
again for the node it finds, and a key that is an alias calls again for a key.  Nothing in them makes the calls end,
so they carry a bound on the nesting of calls and answer `none` where it is met.

With the anchors of a loaded document the bound is never met (`bounded_ofNode`, `bounded_nameOf`): an alias that is
followed takes its number from the anchors left to expand, and the node it finds is no alias and carries this number.
`(k + 1) * d` nested calls are enough for `k` anchors and nodes of depth `d`, so no tree is nested deeper
(`depth_le_of_bounded`).
-/

namespace LocatedYaml

/-! ### The calls -/

namespace Tree.Bounded

/-- An answer or a failure; `none` where the calls are nested deeper than the bound. -/
abbrev Call (α : Type) := ExceptT ConvertError Option α

/-- The node that an alias stands for, at the place of the alias. -/
def relocated? (find? : AnchorId → Option Node) (id : AnchorId) (range : Option Range) : Option Node :=
  (find? id).map fun target => target.withRange (range.or target.range)

/-- The name that a key gives. -/
def nameOf (table : PositionTable) (find? : AnchorId → Option Node) (expanding : Expanding) : Nat → Node → Call Name
  | 0, _ => ExceptT.mk none
  | _ + 1, .scalar scalar => pure ⟨scalar.source, table.location scalar.range⟩
  | _ + 1, .mapping _ _ _ range => throw (.unsupportedKey .mapping (table.location range))
  | _ + 1, .sequence _ _ _ range => throw (.unsupportedKey .sequence (table.location range))
  | bound + 1, .aliasOf id range =>
    match relocated? find? id range with
    | some target =>
      if id ∈ expanding then pure ⟨[], table.location range⟩ else nameOf table find? expanding bound target
    | none => pure ⟨[], table.location range⟩

/-- The tree of a node; `expanding` are the anchors being expanded outside the node. -/
def ofNode (table : PositionTable) (find? : AnchorId → Option Node) : Nat → Expanding → Node → Call Tree
  | 0, _, _ => ExceptT.mk none
  | bound + 1, outside, node =>
    let expanding := outside.enter node
    match node with
    | .scalar scalar => ExceptT.mk (some (ofScalar table scalar))
    | .mapping pairs _ _ range => do
      let members ← pairs.mapM fun pair => do
        let name ← nameOf table find? expanding bound pair.key
        let value ← ofNode table find? bound expanding pair.value
        return ⟨name, value, memberLoc name pair value⟩
      return .object members (table.location range)
    | .sequence items _ _ range => do
      let elements ← items.mapM fun item => do
        let value ← ofNode table find? bound expanding item
        return ⟨value, table.location item.range⟩
      return .array elements (table.location range)
    | .aliasOf id range =>
      if id ∈ expanding then pure (.null (table.location range))
      else
        match relocated? find? id range with
        | some target => ofNode table find? bound expanding target
        | none => pure (.null (table.location range))

end Tree.Bounded

/-! ### Anchors left to expand -/

namespace AnchorTable

/-- The anchors that the table resolves. -/
def resolved (table : AnchorTable) : Finset AnchorId := (table.entries.map Prod.fst).toFinset

theorem mem_resolved {table : AnchorTable} {id : AnchorId} : id ∈ table.resolved ↔ (table.find? id).isSome := by
  simp [resolved, find?, List.lookup_isSome_iff]

/-- The resolved anchors that are not being expanded. -/
def left (table : AnchorTable) (expanding : Expanding) : Finset AnchorId :=
  table.resolved.filter (· ∉ expanding)

theorem mem_left {table : AnchorTable} {expanding : Expanding} {id : AnchorId} :
    id ∈ table.left expanding ↔ (table.find? id).isSome ∧ id ∉ expanding := by
  simp [left, mem_resolved]

theorem card_left_enter_le (table : AnchorTable) (expanding : Expanding) (node : Node) :
    (table.left (expanding.enter node)).card ≤ (table.left expanding).card := by
  refine Finset.card_le_card fun id h => ?_
  unfold left Expanding.enter at *
  split at h <;> simp_all

theorem card_left_cons_lt {table : AnchorTable} {expanding : Expanding} {id : AnchorId}
    (h : id ∈ table.left expanding) : (table.left (id :: expanding)).card < (table.left expanding).card := by
  refine Finset.card_lt_card ⟨fun x hx => ?_, fun hsub => ?_⟩
  · simp_all [mem_left]
  · have := hsub h
    simp [mem_left] at this

end AnchorTable

open LocatedYaml.Tree LocatedYaml.Tree.Bounded

/-- A look-up that leads an alias to itself meets every bound: the calls end because no anchor table does this. -/
theorem nameOf_run_of_loop (table : PositionTable) {find? : AnchorId → Option Node} {expanding : Expanding}
    {id : AnchorId} (hid : id ∉ expanding) {range range' : Option Range}
    (hloop : find? id = some (.aliasOf id range')) (bound : Nat) :
    (Bounded.nameOf table find? expanding bound (.aliasOf id range)).run = none := by
  induction bound generalizing range with
  | zero => rfl
  | succ bound ih =>
    rw [Bounded.nameOf, relocated?, hloop]
    change (if id ∈ expanding then _ else _ : Call Name).run = none
    rw [if_neg hid]
    exact ih

/-! ### The bound is not met -/

theorem bounded_nameOf (table : PositionTable) (anchors : AnchorTable) (expanding : Expanding) {key : Node}
    {bound : Nat} (hpos : 0 < bound)
    (hfollow : ∀ id range, key = .aliasOf id range → id ∈ anchors.left expanding → 1 < bound) :
    (Bounded.nameOf table anchors.find? expanding bound key).run =
      some (Tree.nameOf table (keyNode anchors expanding key)) := by
  obtain ⟨bound, rfl⟩ : ∃ n, bound = n + 1 := ⟨bound - 1, by omega⟩
  cases key with
  | scalar s => rfl
  | mapping pairs flow anchor range => rfl
  | sequence items flow anchor range => rfl
  | aliasOf id range =>
    simp only [Bounded.nameOf, keyNode, Bounded.relocated?, AnchorTable.relocated?]
    cases hfind : anchors.find? id with
    | none => simp [Tree.nameOf]
    | some target =>
      by_cases hid : id ∈ expanding
      · simp [hid, Tree.nameOf]
      · have hleft : id ∈ anchors.left expanding := by
          simp [AnchorTable.left, AnchorTable.mem_resolved, hfind, hid]
        obtain ⟨bound, rfl⟩ : ∃ n, bound = n + 1 := ⟨bound - 1, by have := hfollow id range rfl hleft; omega⟩
        have hanchor := AnchorTable.anchor_of_find? hfind
        cases target with
        | aliasOf id' range' => simp [Node.anchor] at hanchor
        | _ => simp [hid, Node.withRange, Bounded.nameOf, Tree.nameOf]

private theorem run_mapM_pairs (table : PositionTable) (anchors : AnchorTable) (expanding : Expanding) {bound : Nat}
    (pairs : List (Pair Node))
    (h : ∀ pair ∈ pairs,
      (Bounded.nameOf table anchors.find? expanding bound pair.key).run =
        some (Tree.nameOf table (keyNode anchors expanding pair.key)) ∧
      (Bounded.ofNode table anchors.find? bound expanding pair.value).run =
        some (Tree.ofNode table anchors (expanding.enter pair.value) pair.value)) :
    (pairs.mapM fun pair => (do
      let name ← Bounded.nameOf table anchors.find? expanding bound pair.key
      let value ← Bounded.ofNode table anchors.find? bound expanding pair.value
      return ⟨name, value, memberLoc name pair value⟩ : Call (Member Tree))).run =
    some (ofPairs table anchors expanding pairs) := by
  induction pairs with
  | nil => rw [ofPairs]; rfl
  | cons pair pairs ih =>
    obtain ⟨hname, hvalue⟩ := h pair (by simp)
    have ih := ih fun p hp => h p (by simp [hp])
    obtain ⟨key, value⟩ := pair
    rw [ofPairs, List.mapM_cons]
    simp only [ExceptT.run_bind, hname, hvalue, ih]
    cases Tree.nameOf table (keyNode anchors expanding key) with
    | error e => rfl
    | ok name =>
      cases Tree.ofNode table anchors (expanding.enter value) value with
      | error e => simp; rfl
      | ok tree =>
        cases ofPairs table anchors expanding pairs <;> simp <;> rfl

private theorem run_mapM_items (table : PositionTable) (anchors : AnchorTable) (expanding : Expanding) {bound : Nat}
    (items : List Node)
    (h : ∀ item ∈ items, (Bounded.ofNode table anchors.find? bound expanding item).run =
      some (Tree.ofNode table anchors (expanding.enter item) item)) :
    (items.mapM fun item => (do
      let value ← Bounded.ofNode table anchors.find? bound expanding item
      return ⟨value, table.location item.range⟩ : Call (Element Tree))).run =
    some (ofItems table anchors expanding items) := by
  induction items with
  | nil => rw [ofItems]; rfl
  | cons item items ih =>
    have hvalue := h item (by simp)
    have ih := ih fun i hi => h i (by simp [hi])
    rw [ofItems, List.mapM_cons]
    simp only [ExceptT.run_bind, hvalue, ih]
    cases Tree.ofNode table anchors (expanding.enter item) item with
    | error e => rfl
    | ok tree => cases ofItems table anchors expanding items <;> simp <;> rfl

/-- With `d` calls for every anchor left to expand inside the node, and calls for the depth of the node, the bound is
not met. -/
theorem bounded_ofNode (table : PositionTable) (anchors : AnchorTable) {d : Nat}
    (hd : ∀ id target, anchors.find? id = some target → target.depth ≤ d) {bound : Nat} {outside : Expanding}
    {node : Node} (h : node.depth + (anchors.left (outside.enter node)).card * d ≤ bound) :
    (Bounded.ofNode table anchors.find? bound outside node).run =
      some (Tree.ofNode table anchors (outside.enter node) node) := by
  induction bound generalizing outside node with
  | zero => have := node.depth_pos; omega
  | succ bound ih =>
    have hinside : ∀ expanding child, child.depth + (anchors.left expanding).card * d ≤ bound →
        (Bounded.ofNode table anchors.find? bound expanding child).run =
          some (Tree.ofNode table anchors (expanding.enter child) child) := fun expanding child hle => by
      have := Nat.mul_le_mul_right d (anchors.card_left_enter_le expanding child)
      exact ih (by omega)
    cases node with
    | scalar s => rw [Bounded.ofNode, Tree.ofNode]; rfl
    | sequence items flow anchor range =>
      rw [Bounded.ofNode, Tree.ofNode]
      rw [Node.depth] at h
      generalize outside.enter (.sequence items flow anchor range) = expanding at *
      have hitems := run_mapM_items table anchors expanding items fun item hitem => by
        have := Node.depth_le_depthOfItems hitem
        exact hinside expanding item (by omega)
      simp only [ExceptT.run_bind, hitems]
      cases ofItems table anchors expanding items <;> rfl
    | mapping pairs flow anchor range =>
      rw [Bounded.ofNode, Tree.ofNode]
      rw [Node.depth] at h
      generalize outside.enter (.mapping pairs flow anchor range) = expanding at *
      have hpairs := run_mapM_pairs table anchors expanding pairs fun pair hpair => by
        have hdepth := Node.depth_le_depthOfPairs hpair
        have hpos := pair.key.depth_pos
        refine ⟨bounded_nameOf table anchors expanding (by omega) fun id range _ hleft => ?_,
          hinside expanding pair.value (by omega)⟩
        -- the anchor that the key follows is left to expand, which leaves room for the call on its node
        obtain ⟨target, htarget⟩ := Option.isSome_iff_exists.1 (AnchorTable.mem_left.1 hleft).1
        have h₁ := Nat.mul_le_mul (Finset.card_pos.2 ⟨id, hleft⟩) (hd id target htarget)
        have := target.depth_pos
        omega
      simp only [ExceptT.run_bind, hpairs]
      cases ofPairs table anchors expanding pairs <;> rfl
    | aliasOf id range =>
      rw [Bounded.ofNode]
      change Node.depth _ + (anchors.left outside).card * d ≤ bound + 1 at h
      change (if id ∈ outside then _ else _ : Call Tree).run = some (Tree.ofNode table anchors outside _)
      by_cases hid : id ∈ outside
      · rw [if_pos hid, ofNode_aliasOf_of_mem hid]; rfl
      · rw [if_neg hid, Bounded.relocated?]
        cases hfind : anchors.find? id with
        | none => rw [ofNode_aliasOf_of_none hfind]; rfl
        | some target =>
          have hlt := AnchorTable.card_left_cons_lt (AnchorTable.mem_left.2 ⟨Option.isSome_of_mem hfind, hid⟩)
          have henter : outside.enter (target.withRange (range.or target.range)) = id :: outside := by
            simp [Expanding.enter, AnchorTable.anchor_of_find? hfind]
          have hmul := Nat.mul_le_mul_right d (show (anchors.left (id :: outside)).card + 1 ≤ _ from hlt)
          have hdepth := hd id target hfind
          rw [Node.depth] at h
          rw [ofNode_aliasOf_of_some hid hfind, ← henter]
          refine ih ?_
          change (target.withRange _).depth + (anchors.left (outside.enter (target.withRange _))).card * d ≤ bound
          rw [henter, Node.depth_withRange]
          rw [Nat.add_mul] at hmul
          omega

/-! ### The depth of the result -/

private theorem exists_of_run_bind {α β : Type} {x : Call α} {f : α → Call β} {b : β}
    (h : (x >>= f).run = some (.ok b)) : ∃ a, x.run = some (.ok a) ∧ (f a).run = some (.ok b) := by
  rw [ExceptT.run_bind] at h
  obtain ⟨r, hr, h⟩ := Option.bind_eq_some_iff.1 h
  cases r with
  | error e => simp at h
  | ok a => exact ⟨a, hr, h⟩

private theorem eq_of_run_pure {α : Type} {a b : α} (h : (pure a : Call α).run = some (.ok b)) : a = b := by
  simpa using h

private theorem exists_of_run_mapM {α β : Type} {f : α → Call β} {xs : List α} {ys : List β}
    (h : (xs.mapM f).run = some (.ok ys)) : ∀ y ∈ ys, ∃ x ∈ xs, (f x).run = some (.ok y) := by
  induction xs generalizing ys with
  | nil =>
    obtain rfl := eq_of_run_pure h
    simp
  | cons x xs ih =>
    rw [List.mapM_cons] at h
    obtain ⟨y, hy, h⟩ := exists_of_run_bind h
    obtain ⟨rest, hrest, h⟩ := exists_of_run_bind h
    obtain rfl := eq_of_run_pure h
    intro z hz
    rcases List.mem_cons.1 hz with rfl | hz
    · exact ⟨x, by simp, hy⟩
    · obtain ⟨x', hx', hz⟩ := ih hrest z hz
      exact ⟨x', by simp [hx'], hz⟩

private theorem depth_ofScalar {table : PositionTable} {s : Scalar} {tree : Tree} (h : ofScalar table s = .ok tree) :
    tree.depth = 1 := by
  unfold ofScalar at h
  split at h <;> first | cases h; rfl | cases h

/-- A tree is not nested deeper than the calls that gave it. -/
theorem depth_le_of_bounded {table : PositionTable} {find? : AnchorId → Option Node} {bound : Nat}
    {outside : Expanding} {node : Node} {tree : Tree}
    (h : (Bounded.ofNode table find? bound outside node).run = some (.ok tree)) : tree.depth ≤ bound := by
  induction bound generalizing outside node tree with
  | zero => exact absurd h (by simp [Bounded.ofNode])
  | succ bound ih =>
    cases node with
    | scalar s =>
      have := depth_ofScalar (Option.some.inj h)
      omega
    | mapping pairs flow anchor range =>
      rw [Bounded.ofNode] at h
      obtain ⟨members, hmembers, h⟩ := exists_of_run_bind h
      obtain rfl := eq_of_run_pure h
      rw [depth]
      refine Nat.succ_le_succ (depthOfMembers_le fun m hm => ?_)
      obtain ⟨pair, -, hm⟩ := exists_of_run_mapM hmembers m hm
      obtain ⟨name, -, hm⟩ := exists_of_run_bind hm
      obtain ⟨value, hvalue, hm⟩ := exists_of_run_bind hm
      obtain rfl := eq_of_run_pure hm
      exact ih hvalue
    | sequence items flow anchor range =>
      rw [Bounded.ofNode] at h
      obtain ⟨elements, helements, h⟩ := exists_of_run_bind h
      obtain rfl := eq_of_run_pure h
      rw [depth]
      refine Nat.succ_le_succ (depthOfElements_le fun e he => ?_)
      obtain ⟨item, -, he⟩ := exists_of_run_mapM helements e he
      obtain ⟨value, hvalue, he⟩ := exists_of_run_bind he
      obtain rfl := eq_of_run_pure he
      exact ih hvalue
    | aliasOf id range =>
      rw [Bounded.ofNode] at h
      split at h
      · obtain rfl := eq_of_run_pure h
        simp [depth]
      · split at h
        · exact Nat.le_succ_of_le (ih h)
        · obtain rfl := eq_of_run_pure h
          simp [depth]

/-! ### Loaded documents -/

/-- The largest depth among the contents of a document and its anchored nodes. -/
def Document.depth (doc : LocatedYaml.Document) : Nat :=
  max ((doc.contents.map Node.depth).getD 0)
    (doc.anchors.resolved.sup fun id => ((doc.resolve? id).map Node.depth).getD 0)

theorem Document.depth_le_of_contents {doc : LocatedYaml.Document} {contents : Node}
    (h : doc.contents = some contents) : contents.depth ≤ Document.depth doc := by
  simp [Document.depth, h]

theorem Document.depth_le_of_resolve? {doc : LocatedYaml.Document} {id : AnchorId} {node : Node}
    (h : doc.resolve? id = some node) : node.depth ≤ Document.depth doc := by
  have hmem : id ∈ doc.anchors.resolved := AnchorTable.mem_resolved.2 (Option.isSome_of_mem h)
  have := Finset.le_sup (f := fun id => ((doc.resolve? id).map Node.depth).getD 0) hmem
  simp only [h, Option.map_some, Option.getD_some] at this
  exact Nat.le_trans this (Nat.le_max_right ..)

/-- Every loaded document is converted within `(k + 1) * d` nested calls, every key within two, and the tree is not
nested deeper than `(k + 1) * d`: `k` is the number of anchors that the document resolves and `d` its depth. -/
theorem conversion_ends {source : Text} {chosen : Version} {readings : List Reading} {doc : LocatedYaml.Document}
    (hload : LocatedYaml.Document.ofReadings source chosen readings = .ok doc) :
    (∀ contents, doc.contents = some contents → ∀ table bound,
      (doc.anchors.resolved.card + 1) * Document.depth doc ≤ bound →
      (Bounded.ofNode table doc.resolve? bound [] contents).run = some (ofContents table doc.anchors contents)) ∧
    (∀ table expanding key bound, 2 ≤ bound →
      (Bounded.nameOf table doc.resolve? expanding bound key).run =
        some (Tree.nameOf table (keyNode doc.anchors expanding key))) ∧
    ∀ converted, Tree.Document.ofReadings source chosen readings = .ok converted →
      converted.body.depth ≤ (doc.anchors.resolved.card + 1) * Document.depth doc := by
  have hends : ∀ contents, doc.contents = some contents → ∀ table bound,
      (doc.anchors.resolved.card + 1) * Document.depth doc ≤ bound →
      (Bounded.ofNode table doc.resolve? bound [] contents).run =
        some (ofContents table doc.anchors contents) := by
    intro contents hcontents table bound hbound
    refine bounded_ofNode table doc.anchors (fun id target => Document.depth_le_of_resolve?) ?_
    have hdepth := Document.depth_le_of_contents hcontents
    have hcard : (doc.anchors.left (Expanding.enter [] contents)).card ≤ doc.anchors.resolved.card :=
      Finset.card_filter_le _ _
    have := Nat.mul_le_mul_right (Document.depth doc) hcard
    rw [Nat.add_mul] at hbound
    omega
  refine ⟨hends, fun table expanding key bound hbound => ?_, fun converted h => ?_⟩
  · exact bounded_nameOf table doc.anchors expanding (by omega) fun _ _ _ _ => by omega
  · obtain ⟨contents, hcontents, hbody⟩ := body_of_ofReadings hload h
    have := hends contents hcontents (PositionTable.ofText source) _ (Nat.le_refl _)
    rw [hbody] at this
    exact depth_le_of_bounded this

/-- `[*b, &a [*b], &b [*a]]`: two anchors that refer to each other, one of them before it is defined. -/
theorem conversion_ends_of_mutual_anchors :
    let source : Text := "[*b, &a [*b], &b [*a]]".toList
    let readings : List Reading :=
      [⟨.documentStart, 0⟩, ⟨.sequenceStart 0, 0⟩, ⟨.aliasOf 2, 1⟩, ⟨.sequenceStart 1, 8⟩, ⟨.aliasOf 2, 9⟩,
        ⟨.sequenceEnd, 11⟩, ⟨.sequenceStart 2, 17⟩, ⟨.aliasOf 1, 18⟩, ⟨.sequenceEnd, 20⟩, ⟨.sequenceEnd, 21⟩,
        ⟨.documentEnd, 22⟩].map .ok
    ∃ doc, LocatedYaml.Document.ofReadings source .v1_2 readings = .ok doc ∧
      doc.anchors.resolved.card = 2 ∧ Document.depth doc = 3 ∧
      (∀ contents, doc.contents = some contents → ∀ table,
        (Bounded.ofNode table doc.resolve? 9 [] contents).run = some (ofContents table doc.anchors contents)) ∧
      ∀ converted, Tree.Document.ofReadings source .v1_2 readings = .ok converted → converted.body.depth ≤ 9 := by
  intro source readings
  obtain ⟨doc, hload, hcard, hdepth⟩ : ∃ doc, LocatedYaml.Document.ofReadings source .v1_2 readings = .ok doc ∧
      doc.anchors.resolved.card = 2 ∧ Document.depth doc = 3 := ⟨_, rfl, by decide, by decide⟩
  obtain ⟨hends, -, hbound⟩ := conversion_ends hload
  rw [hcard, hdepth] at hends hbound
  exact ⟨doc, hload, hcard, hdepth, fun contents h table => hends contents h table 9 (by decide), hbound⟩

end LocatedYaml
