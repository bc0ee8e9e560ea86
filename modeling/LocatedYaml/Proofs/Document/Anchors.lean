import LocatedYaml.Proofs.Document.Building
import Mathlib.Data.List.Perm.Basic

/-!
# Aliases and anchors of loaded documents

Every alias of a loaded document has a range (`ranged_of_ofEvents`).  Where no two events define the same anchor,
every anchored node inside the contents or inside an anchored node is the one that the document resolves its anchor
to (`records_of_ofEvents`): the anchors that are recorded, those of open collections and those still to come are
all different.
-/

namespace LocatedYaml

/-- No two nodes that the events describe have the same anchor. -/
def DistinctAnchors (events : List MarkedEvent) : Prop := (events.filterMap fun e => e.event.anchor).Nodup

instance (events : List MarkedEvent) : Decidable (DistinctAnchors events) :=
  inferInstanceAs (Decidable (List.Nodup _))

/-- Every alias inside the node stands in the source. -/
def Node.Ranged (node : Node) : Prop := ∀ id range, (Node.aliasOf id range).Within node → range.isSome

theorem Node.Ranged.child {node child : Node} (h : node.Ranged) (hchild : child ∈ node.children) : child.Ranged :=
  fun id range hw => h id range (.inside hchild hw)

theorem Node.Ranged.isSome_range {node : Node} (h : node.Ranged) (halias : node.isAlias) : node.range.isSome := by
  cases node with
  | aliasOf id range => exact h id range (.refl _)
  | _ => cases halias

/-- Every anchored node inside the node is the one that the table has under its anchor. -/
def AnchorTable.Records (table : AnchorTable) (node : Node) : Prop :=
  ∀ inner id, inner.Within node → inner.anchor = some id → table.find? id = some inner

namespace Builder

variable {source : Text} {version : Version} {b b' : Builder} {e : MarkedEvent} {events : List MarkedEvent}

private theorem ranged_absent : Node.absent.Ranged := by
  intro id range h
  rcases Node.within_iff.1 h with h | ⟨child, hchild, -⟩
  · cases h
  · cases hchild

private theorem range_of_completion? {frames : List Frame} {id : AnchorId} {range : Option Range}
    (hc : b.completion? source version e = some (frames, .aliasOf id range)) : range.isSome := by
  cases completes_of_completion? hc with
  | aliasOf => rfl

private theorem ranged_of_completion? {frames : List Frame} {node : Node}
    (hc : b.completion? source version e = some (frames, node)) (h : ∀ child ∈ node.children, child.Ranged) :
    node.Ranged := by
  intro id range hw
  rcases Node.within_iff.1 hw with rfl | ⟨child, hchild, hw⟩
  · exact range_of_completion? hc
  · exact h child hchild id range hw

/-! ### Distinct anchors -/

private theorem records_absent (table : AnchorTable) : table.Records .absent := by
  intro inner id h hid
  rcases Node.within_iff.1 h with rfl | ⟨child, hchild, -⟩
  · cases hid
  · cases hchild

/-- The anchors that are recorded and those of the open collections. -/
def anchorIds (b : Builder) : List AnchorId := b.anchors.entries.map Prod.fst ++ b.frames.filterMap Frame.anchor

/-- The anchors known so far and those still to come are all different, and every anchored node that the builder
holds is recorded. -/
structure Distinct (events : List MarkedEvent) (b : Builder) : Prop where
  nodup : (b.anchorIds ++ events.filterMap fun e => e.event.anchor).Nodup
  records : b.Holds b.anchors.Records

private theorem sublist_keys_record (table : AnchorTable) (node : Node) :
    ((table.record node).entries.map Prod.fst).Sublist (node.anchor.toList ++ table.entries.map Prod.fst) := by
  unfold AnchorTable.record
  split
  · rename_i h
    simp [h]
  · rename_i id h
    have htoList : node.anchor.toList = [id] := by simp [h]
    rw [htoList]
    exact (List.filter_sublist.map _).cons_cons id

theorem frameAnchors_complete (b : Builder) (node : Node) :
    (b.complete node).frames.filterMap Frame.anchor = b.frames.filterMap Frame.anchor := by
  have hmap : ∀ frames : List Frame, frames.filterMap Frame.anchor = (frames.map Frame.anchor).filterMap id :=
    fun frames => by simp [List.filterMap_map]
  rw [hmap, hmap, map_frames_complete Frame.anchor_push]

private theorem anchorIds_complete (b : Builder) (node : Node) :
    (b.complete node).anchorIds.Sublist (node.anchor.toList ++ b.anchorIds) := by
  unfold anchorIds
  rw [anchors_complete, frameAnchors_complete, ← List.append_assoc]
  exact (sublist_keys_record b.anchors node).append_right _

/-- A node takes its anchor from its event or from its frame. -/
theorem anchors_perm_of_completion? {frames : List Frame} {node : Node}
    (hc : b.completion? source version e = some (frames, node)) :
    (b.frames.filterMap Frame.anchor ++ e.event.anchor.toList).Perm
      (node.anchor.toList ++ frames.filterMap Frame.anchor) := by
  rcases completion?_cases hc with ⟨rfl, -, hanchor⟩ | ⟨frame, _, hframe, hanchor, hevent, -⟩
  · rw [hanchor]
    exact List.perm_append_comm
  · have hframes : b.frames.filterMap Frame.anchor = node.anchor.toList ++ frames.filterMap Frame.anchor := by
      rw [hframe, hanchor, List.filterMap_cons]
      cases frame.anchor <;> rfl
    rw [hframes, hevent, Option.toList_none, List.append_nil]

private theorem anchorIds_perm_of_completion? {frames : List Frame} {node : Node}
    (hc : b.completion? source version e = some (frames, node)) :
    (b.anchorIds ++ e.event.anchor.toList).Perm (node.anchor.toList ++ anchorIds { b with frames }) := by
  unfold anchorIds
  rw [List.append_assoc]
  refine ((anchors_perm_of_completion? hc).append_left _).trans ?_
  rw [← List.append_assoc, ← List.append_assoc]
  exact List.perm_append_comm.append_right _

private theorem filterMap_anchor_cons (e : MarkedEvent) (events : List MarkedEvent) :
    ((e :: events).filterMap fun e => e.event.anchor) =
      e.event.anchor.toList ++ events.filterMap fun e => e.event.anchor := by
  rw [List.filterMap_cons]
  cases e.event.anchor <;> rfl

private theorem Distinct.completes {frames : List Frame} {node : Node} (hb : Distinct (e :: events) b)
    (hc : b.completion? source version e = some (frames, node)) :
    Distinct events (complete { b with frames } node) := by
  have hnodup := hb.nodup
  rw [filterMap_anchor_cons, ← List.append_assoc, ((anchorIds_perm_of_completion? hc).append_right _).nodup_iff]
    at hnodup
  have hfresh : ∀ id, node.anchor = some id → b.anchors.find? id = none := fun id hid => by
    rw [hid] at hnodup
    refine Option.eq_none_iff_forall_ne_some.2 fun n hn => (List.nodup_cons.1 hnodup).1 ?_
    have : id ∈ b.anchors.entries.map Prod.fst := List.mem_map_of_mem (AnchorTable.mem_of_find? hn)
    simp [anchorIds, this]
  -- the new entry hides no older one, so what was recorded stays recorded
  have hkeep : ∀ n, b.anchors.Records n → (b.anchors.record node).Records n := fun n hn inner id hw hid => by
    have hold := hn inner id hw hid
    rw [AnchorTable.find?_record, if_neg fun hnode => by simp [hfresh id hnode] at hold]
    exact hold
  have hnode : (b.anchors.record node).Records node := fun inner id hw hid => by
    rcases Node.within_iff.1 hw with rfl | ⟨child, hchild, hw⟩
    · rw [AnchorTable.find?_record, if_pos hid]
    · exact hkeep child (hb.records.children (records_absent _) hc child hchild) inner id hw hid
  refine ⟨hnodup.sublist ((anchorIds_complete _ node).append_right _), ?_⟩
  rw [anchors_complete]
  exact ((hb.records.popped hc).mono hkeep).complete hnode

private theorem Distinct.move (hb : Distinct (e :: events) b) (h : Move source version b e b') :
    Distinct events b' := by
  have hnodup := hb.nodup
  rw [filterMap_anchor_cons, ← List.append_assoc] at hnodup
  cases h with
  | completes hc => exact hb.completes hc
  | @opens frame ho =>
    refine ⟨?_, hb.records.opened ho⟩
    rw [← (opening?_eq_some ho).2, anchorIds, List.append_assoc _ _ frame.anchor.toList] at hnodup
    have hframes : (b.opened frame).frames.filterMap Frame.anchor =
        frame.anchor.toList ++ b.frames.filterMap Frame.anchor := by
      rw [opened, List.filterMap_cons]
      cases frame.anchor <;> rfl
    rw [anchorIds, hframes]
    exact ((List.perm_append_comm.append_left _).append_right _).nodup_iff.1 hnodup
  | starts he hb' =>
    rw [he] at hnodup
    exact ⟨by simpa [Event.anchor, anchorIds] using hnodup, ⟨hb.records.root, hb.records.frames, hb.records.anchors⟩⟩
  | stays he =>
    rw [Event.anchor_of_isNeutral he] at hnodup
    exact ⟨by simpa using hnodup, hb.records⟩

end Builder

theorem Document.ranged_of_ofEvents {source : Text} {version : Version} {events : List MarkedEvent} {doc : Document}
    (h : Document.ofEvents source version events = .ok doc) :
    (∀ contents, doc.contents = some contents → contents.Ranged) ∧
      ∀ id node, doc.resolve? id = some node → node.Ranged :=
  Document.forall_nodes_of_ofEvents Builder.ranged_absent (fun _ _ _ _ hc => Builder.ranged_of_completion? hc) h

theorem Document.records_of_ofEvents {source : Text} {version : Version} {events : List MarkedEvent} {doc : Document}
    (hdistinct : DistinctAnchors events) (h : Document.ofEvents source version events = .ok doc) :
    (∀ contents, doc.contents = some contents → doc.anchors.Records contents) ∧
      ∀ id node, doc.resolve? id = some node → doc.anchors.Records node := by
  obtain ⟨b, hrun, -, rfl⟩ := Document.ofEvents_eq_ok.1 h
  have hb : b.Distinct [] := Builder.run_induction (fun _ _ _ _ hmove hb => hb.move hmove) hrun
    ⟨by simpa [Builder.anchorIds, AnchorTable.empty, DistinctAnchors] using hdistinct, Builder.holds_empty⟩
  exact ⟨hb.records.root, hb.records.anchors⟩

end LocatedYaml
