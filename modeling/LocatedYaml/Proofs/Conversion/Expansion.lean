import LocatedYaml.Node.AnchorTable
import LocatedYaml.Proofs.Node.Inside
import Mathlib.Logic.Relation

/-!
# Expanded nodes

A node with every alias replaced by the node it refers to, moved to the place of the alias, and every alias that
refers to nothing by an absent value at its place.  The expansion of a node is unique (`Node.Expands.eq`), holds no
alias (`Node.Expands.not_mentions`) and stands where the node stands (`Node.Expands.range_eq`).
-/

namespace LocatedYaml

namespace Node

mutual

/-- `Expands anchors node expanded`: `expanded` is `node` with all aliases replaced, those that come from a
replacement included.  The absent value is both a null value and a key with an empty name. -/
inductive Expands (anchors : AnchorTable) : Node → Node → Prop where
  | scalar (s : Scalar) : Expands anchors (.scalar s) (.scalar s)
  | mapping {pairs pairs' : List (Pair Node)} {flow : Bool} {anchor : Option AnchorId} {range : Option Range}
    (h : ExpandsPairs anchors pairs pairs') :
    Expands anchors (.mapping pairs flow anchor range) (.mapping pairs' flow anchor range)
  | sequence {items items' : List Node} {flow : Bool} {anchor : Option AnchorId} {range : Option Range}
    (h : ExpandsItems anchors items items') :
    Expands anchors (.sequence items flow anchor range) (.sequence items' flow anchor range)
  | defined {id : AnchorId} {range : Option Range} {target expanded : Node} (hfind : anchors.find? id = some target)
    (h : Expands anchors (target.withRange range) expanded) : Expands anchors (.aliasOf id range) expanded
  | undefined {id : AnchorId} {range : Option Range} (hfind : anchors.find? id = none) :
    Expands anchors (.aliasOf id range) (Node.absent.withRange range)

inductive ExpandsPairs (anchors : AnchorTable) : List (Pair Node) → List (Pair Node) → Prop where
  | nil : ExpandsPairs anchors [] []
  | cons {key key' value value' : Node} {pairs pairs' : List (Pair Node)} (hkey : Expands anchors key key')
    (hvalue : Expands anchors value value') (h : ExpandsPairs anchors pairs pairs') :
    ExpandsPairs anchors (⟨key, value⟩ :: pairs) (⟨key', value'⟩ :: pairs')

inductive ExpandsItems (anchors : AnchorTable) : List Node → List Node → Prop where
  | nil : ExpandsItems anchors [] []
  | cons {item item' : Node} {items items' : List Node} (hitem : Expands anchors item item')
    (h : ExpandsItems anchors items items') : ExpandsItems anchors (item :: items) (item' :: items')

end

variable {anchors : AnchorTable}

mutual

theorem Expands.eq : ∀ {node a b : Node}, Expands anchors node a → Expands anchors node b → a = b
  | _, _, _, .scalar _, .scalar _ => rfl
  | _, _, _, .mapping ha, .mapping hb => by rw [ha.eq hb]
  | _, _, _, .sequence ha, .sequence hb => by rw [ha.eq hb]
  | _, _, _, .defined hfind ha, .defined hfind' hb => ha.eq (Option.some.inj (hfind'.symm.trans hfind) ▸ hb)
  | _, _, _, .defined hfind _, .undefined hnone => by rw [hfind] at hnone; cases hnone
  | _, _, _, .undefined hnone, .defined hfind _ => by rw [hnone] at hfind; cases hfind
  | _, _, _, .undefined _, .undefined _ => rfl

theorem ExpandsPairs.eq : ∀ {pairs a b : List (Pair Node)},
    ExpandsPairs anchors pairs a → ExpandsPairs anchors pairs b → a = b
  | _, _, _, .nil, .nil => rfl
  | _, _, _, .cons hkey hvalue ha, .cons hkey' hvalue' hb => by rw [hkey.eq hkey', hvalue.eq hvalue', ha.eq hb]

theorem ExpandsItems.eq : ∀ {items a b : List Node},
    ExpandsItems anchors items a → ExpandsItems anchors items b → a = b
  | _, _, _, .nil, .nil => rfl
  | _, _, _, .cons hitem ha, .cons hitem' hb => by rw [hitem.eq hitem', ha.eq hb]

end

mutual

theorem Expands.not_mentions (id : AnchorId) : ∀ {node expanded : Node},
    Expands anchors node expanded → ¬ expanded.Mentions id
  | _, _, .scalar s => not_mentions_scalar s id
  | _, _, .mapping h => by
    have hpairs := h.not_mentions id
    rw [mentions_iff]
    rintro (⟨range, heq⟩ | ⟨child, hchild, hm⟩)
    · cases heq
    · obtain ⟨pair, hpair, hc⟩ := mem_children_mapping.1 hchild
      rcases hc with rfl | rfl
      · exact (hpairs pair hpair).1 hm
      · exact (hpairs pair hpair).2 hm
  | _, _, .sequence h => by
    have hitems := h.not_mentions id
    rw [mentions_iff]
    rintro (⟨range, heq⟩ | ⟨child, hchild, hm⟩)
    · cases heq
    · exact hitems child hchild hm
  | _, _, .defined _ h => h.not_mentions id
  | _, _, .undefined _ => not_mentions_scalar _ id

theorem ExpandsPairs.not_mentions (id : AnchorId) : ∀ {pairs expanded : List (Pair Node)},
    ExpandsPairs anchors pairs expanded → ∀ pair ∈ expanded, ¬ pair.key.Mentions id ∧ ¬ pair.value.Mentions id
  | _, _, .nil => by simp
  | _, _, .cons hkey hvalue h =>
    List.forall_mem_cons.2 ⟨⟨hkey.not_mentions id, hvalue.not_mentions id⟩, h.not_mentions id⟩

theorem ExpandsItems.not_mentions (id : AnchorId) : ∀ {items expanded : List Node},
    ExpandsItems anchors items expanded → ∀ item ∈ expanded, ¬ item.Mentions id
  | _, _, .nil => by simp
  | _, _, .cons hitem h => List.forall_mem_cons.2 ⟨hitem.not_mentions id, h.not_mentions id⟩

end

theorem Expands.range_eq : ∀ {node expanded : Node}, Expands anchors node expanded → expanded.range = node.range
  | _, _, .scalar _ => rfl
  | _, _, .mapping _ => rfl
  | _, _, .sequence _ => rfl
  | _, _, .defined _ h => by rw [h.range_eq, range_withRange]; rfl
  | _, _, .undefined _ => rfl

end Node

end LocatedYaml
