import LocatedYaml.Proofs.Document.Anchors
import LocatedYaml.Proofs.Document.Nesting

/-!
# The nodes that a row of events completes

A builder accounts for every node that was completed (`Builder.Accounts`): its table holds them all, later nodes in
place of earlier ones; those with an anchor are inside the roots and the open collections, none lost and none
doubled; and their anchors, with those of the open collections, are the anchors of the events.  So a document
resolves an anchor to the last node completed with it, and this node stands in the contents when they are the only
root (`resolution_of_completions`).
-/

namespace LocatedYaml

/-! ### All answers in a row of events -/

section Answers

variable {α : Type} {ask : List MarkedEvent → MarkedEvent → Option α}

/-- The answers that the events give; what is asked of an event may depend on the events before it. -/
def answersFrom (ask : List MarkedEvent → MarkedEvent → Option α) (before : List MarkedEvent) :
    List MarkedEvent → List α
  | [] => []
  | e :: events => (ask before e).toList ++ answersFrom ask (before ++ [e]) events

/-- All answers in the whole row. -/
def answers (ask : List MarkedEvent → MarkedEvent → Option α) (events : List MarkedEvent) : List α :=
  answersFrom ask [] events

private theorem answersFrom_append (before events events' : List MarkedEvent) :
    answersFrom ask before (events ++ events') =
      answersFrom ask before events ++ answersFrom ask (before ++ events) events' := by
  induction events generalizing before with
  | nil => simp [answersFrom]
  | cons e events ih => simp [answersFrom, ih]

theorem answers_concat (events : List MarkedEvent) (e : MarkedEvent) :
    answers ask (events ++ [e]) = answers ask events ++ (ask events e).toList := by
  simp [answers, answersFrom_append, answersFrom]

theorem first?_eq_head? (events : List MarkedEvent) : first? ask events = (answers ask events).head? := by
  induction events using List.reverseRecOn with
  | nil => rfl
  | append_singleton events e ih =>
    rw [first?_concat, answers_concat, List.head?_append, ih]
    cases ask events e <;> rfl

end Answers

/-- The nodes that a row of events completes, in the order of their completion. -/
def completions (source : Text) (version : Version) (events : List MarkedEvent) : List Node :=
  answers (completed? source version) events

/-- The nodes that a row of events completes outside all collections. -/
def roots (source : Text) (version : Version) (events : List MarkedEvent) : List Node :=
  answers (root? source version) events

/-! ### Anchored nodes -/

namespace Node

/-- The nodes with an anchor inside a row of nodes, each as often as it stands there. -/
def anchoredNodes (nodes : List Node) : List Node := (nodes.flatMap Node.nodes).filter (·.anchor.isSome)

theorem anchoredNodes_append (nodes nodes' : List Node) :
    anchoredNodes (nodes ++ nodes') = anchoredNodes nodes ++ anchoredNodes nodes' := by
  simp [anchoredNodes]

theorem anchoredNodes_perm {nodes nodes' : List Node} (h : nodes.Perm nodes') :
    (anchoredNodes nodes).Perm (anchoredNodes nodes') :=
  (h.flatMap_right _).filter _

theorem anchoredNodes_singleton (node : Node) :
    anchoredNodes [node] = [node].filter (·.anchor.isSome) ++ anchoredNodes node.children := by
  rw [anchoredNodes, List.flatMap_singleton, nodes_eq, List.filter_cons, anchoredNodes]
  cases h : node.anchor <;> simp [h]

theorem anchoredNodes_replicate_absent (n : Nat) : anchoredNodes (List.replicate n absent) = [] := by
  simp [anchoredNodes, nodes, absent, anchor]

/-- Among nodes with different anchors, there is one with a given anchor at most. -/
theorem filter_anchor_eq_singleton {nodes : List Node} {node : Node} {id : AnchorId} (hmem : node ∈ nodes)
    (hid : node.anchor = some id) (hnodup : (nodes.filterMap anchor).Nodup) :
    nodes.filter (·.anchor = some id) = [node] := by
  induction nodes with
  | nil => cases hmem
  | cons head nodes ih =>
    by_cases hhead : head.anchor = some id
    · rw [List.filterMap_cons_some hhead, List.nodup_cons] at hnodup
      have hnone : nodes.filter (·.anchor = some id) = [] := List.filter_eq_nil_iff.2 fun n hn hanchor =>
        hnodup.1 (List.mem_filterMap.2 ⟨n, hn, by simpa using hanchor⟩)
      rw [List.filter_cons_of_pos (by simpa using hhead), hnone]
      rcases List.mem_cons.1 hmem with rfl | hmem
      · rfl
      · exact absurd (List.mem_filterMap.2 ⟨node, hmem, hid⟩) hnodup.1
    · rw [List.filter_cons_of_neg (by simpa using hhead)]
      refine ih ?_ (hnodup.sublist ((List.sublist_cons_self head nodes).filterMap _))
      rcases List.mem_cons.1 hmem with rfl | hmem
      · exact absurd hid hhead
      · exact hmem

end Node

theorem Frame.nodes_push_perm (node : Node) (frame : Frame) : (frame.push node).nodes.Perm (node :: frame.nodes) := by
  rcases frame with ⟨start, anchor, items⟩ | ⟨start, anchor, pairs, _ | key⟩
  · exact List.Perm.refl _
  · simp [Frame.push, Frame.nodes]
  · simp only [Frame.push, Frame.nodes, List.flatMap_cons, Option.toList_none, Option.toList_some, List.append_nil]
    exact ((List.Perm.swap node key _).trans ((List.perm_append_singleton key _).symm.cons node))

namespace Builder

variable {source : Text} {version : Version} {b b' : Builder} {e : MarkedEvent} {before events : List MarkedEvent}

/-! ### What one event adds -/

/-- The nodes in the collections that are still open. -/
def openNodes (b : Builder) : List Node := b.frames.flatMap Frame.nodes

/-- A completed node takes its children out of the open collections, absent values apart. -/
theorem children_perm_of_completion? {frames : List Frame} {node : Node}
    (hc : b.completion? source version e = some (frames, node)) :
    ∃ n, (openNodes { b with frames } ++ node.children).Perm (b.openNodes ++ List.replicate n Node.absent) := by
  rcases completion?_cases hc with ⟨rfl, hchildren, -⟩ | ⟨frame, n, hframes, -, -, hchildren⟩
  · exact ⟨0, by rw [hchildren, List.replicate_zero]⟩
  · refine ⟨n, ?_⟩
    rw [openNodes, openNodes, hframes, List.flatMap_cons]
    refine (hchildren.append_left _).trans ?_
    rw [← List.append_assoc]
    exact List.perm_append_comm.append_right _

/-- A completed node is a root or goes into the innermost open collection. -/
theorem roots_openNodes_complete_perm {frames : List Frame} {node : Node}
    (hb : Tracks source version before b) (hc : b.completion? source version e = some (frames, node))
    (hnext : Tracks source version (before ++ [e]) (complete { b with frames } node)) :
    (roots source version (before ++ [e]) ++ openNodes (complete { b with frames } node)).Perm
      (roots source version before ++ openNodes { b with frames } ++ [node]) := by
  have hroot : root? source version before e = if frames = [] then some node else none := by
    rw [root?, ← hnext.opened, hb.completed?_eq, hc, collections_complete, Option.map_some]
    simp only [List.map_eq_nil_iff]
  rw [roots, answers_concat, hroot]
  cases frames with
  | nil => simp [roots, openNodes, complete]
  | cons frame frames =>
    have hpush := (Frame.nodes_push_perm node frame).append_right (frames.flatMap Frame.nodes)
    simp only [reduceCtorEq, if_false, Option.toList_none, List.append_nil, List.append_assoc]
    refine List.Perm.append_left _ (hpush.trans ?_)
    exact (List.perm_append_singleton node _).symm

/-! ### What a run has completed -/

private theorem filterMap_concat {α β : Type} (f : α → Option β) (l : List α) (a : α) :
    (l ++ [a]).filterMap f = l.filterMap f ++ (f a).toList := by
  rw [List.filterMap_append, List.filterMap_cons]
  cases f a <;> rfl

/-- The builder has been through the events `before`, and all nodes completed on the way are accounted for: by the
anchor table, by the roots and the open collections, and by the anchors of the events. -/
structure Accounts (source : Text) (version : Version) (before : List MarkedEvent) (b : Builder) : Prop where
  tracks : Tracks source version before b
  table : b.anchors = (completions source version before).foldl AnchorTable.record .empty
  anchored : (Node.anchoredNodes (roots source version before ++ b.openNodes)).Perm
    ((completions source version before).filter (·.anchor.isSome))
  anchors : ((completions source version before).filterMap Node.anchor ++ b.frames.filterMap Frame.anchor).Perm
    (before.filterMap fun e => e.event.anchor)

theorem Accounts.completes {frames : List Frame} {node : Node} (hb : Accounts source version before b)
    (hc : b.completion? source version e = some (frames, node))
    (hnext : Tracks source version (before ++ [e]) (complete { b with frames } node)) :
    Accounts source version (before ++ [e]) (complete { b with frames } node) := by
  have hcompletions : completions source version (before ++ [e]) = completions source version before ++ [node] := by
    rw [completions, answers_concat, hb.tracks.completed?_eq, hc]
    rfl
  refine ⟨hnext, ?_, ?_, ?_⟩
  · rw [anchors_complete, hcompletions, List.foldl_concat, ← hb.table]
  · obtain ⟨n, hchildren⟩ := children_perm_of_completion? hc
    have hheld := Node.anchoredNodes_perm (roots_openNodes_complete_perm hb.tracks hc hnext)
    have hinside := Node.anchoredNodes_perm (hchildren.append_left (roots source version before))
    simp only [← List.append_assoc, Node.anchoredNodes_append, Node.anchoredNodes_singleton,
      Node.anchoredNodes_replicate_absent, List.append_nil] at hheld hinside ⊢
    rw [hcompletions, List.filter_append]
    -- the node changes places with its children, which it takes out of the open collections
    have hanchored := hb.anchored
    rw [Node.anchoredNodes_append] at hanchored
    have hcomm : ([node].filter (·.anchor.isSome) ++ Node.anchoredNodes node.children).Perm
        (Node.anchoredNodes node.children ++ [node].filter (·.anchor.isSome)) := List.perm_append_comm
    have hswap := hcomm.append_left
      (Node.anchoredNodes (roots source version before) ++ Node.anchoredNodes (openNodes { b with frames }))
    simp only [← List.append_assoc] at hswap
    exact hheld.trans (hswap.trans ((hinside.trans hanchored).append_right _))
  · rw [hcompletions, filterMap_concat, filterMap_concat, frameAnchors_complete, List.append_assoc]
    refine ((anchors_perm_of_completion? hc).symm.append_left _).trans ?_
    rw [← List.append_assoc]
    exact hb.anchors.append_right _

theorem Accounts.passes (hb : Accounts source version before b) (hnext : Tracks source version (before ++ [e]) b')
    (hnone : b.completion? source version e = none) (htable : b'.anchors = b.anchors)
    (hnodes : b'.openNodes = b.openNodes)
    (hframes : b'.frames.filterMap Frame.anchor = e.event.anchor.toList ++ b.frames.filterMap Frame.anchor) :
    Accounts source version (before ++ [e]) b' := by
  have hcompleted : completed? source version before e = none := by
    rw [hb.tracks.completed?_eq, hnone, Option.map_none]
  have hcompletions : completions source version (before ++ [e]) = completions source version before := by
    rw [completions, completions, answers_concat, hcompleted, Option.toList_none, List.append_nil]
  have hroots : roots source version (before ++ [e]) = roots source version before := by
    have hroot : root? source version before e = none := by
      rw [root?, hcompleted, ite_self]
    rw [roots, roots, answers_concat, hroot, Option.toList_none, List.append_nil]
  refine ⟨hnext, by rw [htable, hcompletions, hb.table], by rw [hroots, hnodes, hcompletions]; exact hb.anchored, ?_⟩
  rw [hcompletions, hframes, filterMap_concat]
  refine (List.perm_append_comm.append_left _).trans ?_
  rw [← List.append_assoc]
  exact hb.anchors.append_right _

private theorem openNodes_opened {frame : Frame} (h : opening? source e = some frame) :
    (b.opened frame).openNodes = b.openNodes := by
  rw [openNodes, opened, List.flatMap_cons, (opening?_eq_some h).1, List.nil_append]
  rfl

theorem Accounts.next (hb : Accounts source version before b) (h : b.step source version e = .ok b') :
    Accounts source version (before ++ [e]) b' := by
  have hnext := hb.tracks.next h
  cases move_of_step h with
  | completes hc => exact hb.completes hc hnext
  | @opens frame ho =>
    refine hb.passes hnext (completion?_of_opening? ho) rfl (openNodes_opened ho) ?_
    rw [← (opening?_eq_some ho).2, opened, List.filterMap_cons]
    cases frame.anchor <;> rfl
  | starts he hstarted =>
    have hnone : b.completion? source version e = none := by rw [completion?, he]
    exact hb.passes hnext hnone rfl rfl (by rw [he]; rfl)
  | stays he => exact hb.passes hnext (completion?_of_isNeutral he) rfl rfl (by rw [Event.anchor_of_isNeutral he]; rfl)

theorem accounts_of_run (h : run source version {} events = .ok b) : Accounts source version events b := by
  induction events using List.reverseRecOn generalizing b with
  | nil =>
    obtain rfl := Except.ok.inj h
    exact ⟨tracks_empty, rfl, List.Perm.refl _, List.Perm.refl _⟩
  | append_singleton events e ih =>
    rw [run_concat] at h
    cases hrun : run source version {} events with
    | error error =>
      rw [hrun] at h
      cases h
    | ok b₁ =>
      rw [hrun] at h
      exact (ih hrun).next h

end Builder

/-! ### Loaded documents -/

/-- The number of an anchor as an event has it, with 0 for none. -/
def Event.anchorId? : Event → Option AnchorId
  | .scalar _ _ anchor _ | .sequenceStart anchor | .mappingStart anchor => some anchor
  | _ => none

private theorem anchorOf_eq_some_iff {anchor id : AnchorId} : anchorOf anchor = some id ↔ 0 < id ∧ anchor = id := by
  by_cases hzero : anchor = 0
  · subst hzero
    rw [anchorOf, if_pos rfl]
    exact ⟨fun h => (Option.some_ne_none id h.symm).elim, fun ⟨hpos, hid⟩ => absurd hid (Nat.ne_of_lt hpos)⟩
  · rw [anchorOf, if_neg hzero, Option.some_inj]
    exact ⟨fun hid => ⟨hid ▸ Nat.pos_of_ne_zero hzero, hid⟩, And.right⟩

theorem Event.anchor_eq_some_iff {event : Event} {id : AnchorId} :
    event.anchor = some id ↔ 0 < id ∧ event.anchorId? = some id := by
  cases event with
  | scalar | sequenceStart | mappingStart =>
    rw [anchorId?, Option.some_inj]
    exact anchorOf_eq_some_iff
  | _ => simp [Event.anchor, anchorId?]

namespace Document

variable {source : Text} {version : Version} {events : List MarkedEvent} {doc : Document} {id : AnchorId}

theorem resolve?_eq_find? (h : ofEvents source version events = .ok doc) (id : AnchorId) :
    doc.resolve? id = (completions source version events).reverse.find? (·.anchor = some id) := by
  obtain ⟨b, hrun, -, rfl⟩ := ofEvents_eq_ok.1 h
  have htable := (Builder.accounts_of_run hrun).table
  rw [resolve?, htable, AnchorTable.find?_foldl_record]
  exact Option.or_none

theorem anchors_perm_of_ofEvents (h : ofEvents source version events = .ok doc) :
    ((completions source version events).filterMap Node.anchor).Perm (events.filterMap fun e => e.event.anchor) := by
  obtain ⟨b, hrun, hframes, -⟩ := ofEvents_eq_ok.1 h
  simpa [hframes] using (Builder.accounts_of_run hrun).anchors

theorem anchoredNodes_roots_perm (h : ofEvents source version events = .ok doc) :
    (Node.anchoredNodes (roots source version events)).Perm
      ((completions source version events).filter (·.anchor.isSome)) := by
  obtain ⟨b, hrun, hframes, -⟩ := ofEvents_eq_ok.1 h
  simpa [Builder.openNodes, hframes] using (Builder.accounts_of_run hrun).anchored

theorem contents_eq_head?_roots (h : ofEvents source version events = .ok doc) :
    doc.contents = (roots source version events).head? := by
  obtain ⟨b, hrun, -, rfl⟩ := ofEvents_eq_ok.1 h
  rw [roots, ← first?_eq_head?]
  exact (Builder.accounts_of_run hrun).tracks.root

theorem isSome_resolve?_iff_completions (h : ofEvents source version events = .ok doc) :
    (doc.resolve? id).isSome ↔ ∃ node ∈ completions source version events, node.anchor = some id := by
  simp [resolve?_eq_find? h, List.find?_isSome]

theorem isSome_resolve?_iff_events (h : ofEvents source version events = .ok doc) :
    (doc.resolve? id).isSome ↔ 0 < id ∧ ∃ e ∈ events, e.event.anchorId? = some id := by
  have hmem := (anchors_perm_of_ofEvents h).mem_iff (a := id)
  rw [List.mem_filterMap, List.mem_filterMap] at hmem
  rw [isSome_resolve?_iff_completions h, hmem]
  simp only [Event.anchor_eq_some_iff]
  exact ⟨fun ⟨e, he, hpos, hid⟩ => ⟨hpos, e, he, hid⟩, fun ⟨hpos, e, he, hid⟩ => ⟨e, he, hpos, hid⟩⟩

theorem resolve?_eq_some_iff {node : Node} (h : ofEvents source version events = .ok doc) :
    doc.resolve? id = some node ↔ node.anchor = some id ∧ ∃ before after,
      completions source version events = before ++ node :: after ∧ ∀ other ∈ after, other.anchor ≠ some id := by
  rw [resolve?_eq_find? h, List.find?_eq_some_iff_append, decide_eq_true_iff]
  refine and_congr_right fun _ => ⟨?_, ?_⟩
  · rintro ⟨after, before, heq, hafter⟩
    refine ⟨before.reverse, after.reverse, ?_, fun other hother => ?_⟩
    · rw [← List.reverse_reverse (completions source version events), heq]
      simp
    · simpa using hafter other (List.mem_reverse.1 hother)
  · rintro ⟨before, after, heq, hafter⟩
    refine ⟨after.reverse, before.reverse, by simp [heq], fun other hother => ?_⟩
    simpa using hafter other (List.mem_reverse.1 hother)

/-- A node that an anchor is resolved to stands in the only root. -/
theorem mem_nodes_of_resolve? {contents node : Node} (h : ofEvents source version events = .ok doc)
    (hroots : roots source version events = [contents]) (hresolve : doc.resolve? id = some node) :
    node ∈ contents.nodes := by
  obtain ⟨hid, before, after, heq, -⟩ := (resolve?_eq_some_iff h).1 hresolve
  have hperm := anchoredNodes_roots_perm h
  rw [hroots, Node.anchoredNodes, List.flatMap_singleton] at hperm
  have hmem : node ∈ (completions source version events).filter (·.anchor.isSome) :=
    List.mem_filter.2 ⟨by simp [heq], by simp [hid]⟩
  exact (List.mem_filter.1 (hperm.mem_iff.2 hmem)).1

/-- In the only root, the nodes have different anchors when the events define different anchors. -/
theorem nodup_anchors_of_roots {contents : Node} (h : ofEvents source version events = .ok doc)
    (hroots : roots source version events = [contents]) (hdistinct : DistinctAnchors events) :
    (contents.nodes.filterMap Node.anchor).Nodup := by
  have hperm := (anchoredNodes_roots_perm h).filterMap Node.anchor
  have hfilter : ∀ nodes : List Node, (nodes.filter (·.anchor.isSome)).filterMap Node.anchor =
      nodes.filterMap Node.anchor := fun nodes => by
    rw [List.filterMap_filter]
    refine List.filterMap_congr fun node _ => ?_
    cases node.anchor <;> rfl
  rw [hroots, Node.anchoredNodes, List.flatMap_singleton, hfilter, hfilter] at hperm
  exact (hperm.trans (anchors_perm_of_ofEvents h)).nodup_iff.2 hdistinct

end Document

/-- A document resolves the anchors, 0 apart, that the events define, each to the last node completed with it.  The
node is no alias.  When a single node was completed outside all collections, it is the contents, and the anchored node
stands in it, as the only node with this anchor when no two events define the same one. -/
theorem resolution_of_completions {source : Text} {chosen : Version} {events : List MarkedEvent} {doc : Document}
    (hload : Document.ofReadings source chosen (events.map .ok) = .ok doc) :
    let version := Version.effective source chosen
    let completed := completions source version events
    (∀ id, ((doc.resolve? id).isSome ↔ ∃ node ∈ completed, node.anchor = some id) ∧
      ((doc.resolve? id).isSome ↔ 0 < id ∧ ∃ e ∈ events, e.event.anchorId? = some id)) ∧
    (∀ id node, doc.resolve? id = some node ↔ node.anchor = some id ∧ ∃ before after,
      completed = before ++ node :: after ∧ ∀ other ∈ after, other.anchor ≠ some id) ∧
    (∀ id node, doc.resolve? id = some node → node.isAlias = false) ∧
    ∀ contents, roots source version events = [contents] → doc.contents = some contents ∧
      ∀ id node, doc.resolve? id = some node → node.Within contents ∧
        (DistinctAnchors events → contents.nodes.filter (·.anchor = some id) = [node]) := by
  intro version completed
  rw [Document.ofReadings_map_ok] at hload
  refine ⟨fun id => ⟨Document.isSome_resolve?_iff_completions hload, Document.isSome_resolve?_iff_events hload⟩,
    fun id node => Document.resolve?_eq_some_iff hload, fun id node => AnchorTable.isAlias_of_find?,
    fun contents hroots => ⟨?_, fun id node hresolve => ?_⟩⟩
  · rw [Document.contents_eq_head?_roots hload, hroots, List.head?_cons]
  · have hmem := Document.mem_nodes_of_resolve? hload hroots hresolve
    have hid := ((Document.resolve?_eq_some_iff hload).1 hresolve).1
    exact ⟨Node.mem_nodes.1 hmem, fun hdistinct =>
      Node.filter_anchor_eq_singleton hmem hid (Document.nodup_anchors_of_roots hload hroots hdistinct)⟩

/-- `{&a k: &b [*a]}`: an anchored key, and an anchored sequence with an alias of it. -/
theorem resolution_of_completions_of_anchored_key :
    let source : Text := "{&a k: &b [*a]}".toList
    let events : List MarkedEvent :=
      [⟨.documentStart, 0⟩, ⟨.mappingStart 0, 0⟩, ⟨.scalar ['k'] .plain 1 none, 4⟩, ⟨.sequenceStart 2, 10⟩,
        ⟨.aliasOf 1, 11⟩, ⟨.sequenceEnd, 13⟩, ⟨.mappingEnd, 14⟩, ⟨.documentEnd, 15⟩]
    ∃ doc contents key sequence, Document.ofReadings source .v1_2 (events.map .ok) = .ok doc ∧
      roots source (Version.effective source .v1_2) events = [contents] ∧ DistinctAnchors events ∧
      doc.resolve? 1 = some key ∧ doc.resolve? 2 = some sequence ∧
      key.Within contents ∧ contents.nodes.filter (·.anchor = some 1) = [key] ∧
      sequence.Within contents ∧ contents.nodes.filter (·.anchor = some 2) = [sequence] := by
  intro source events
  obtain ⟨doc, contents, key, sequence, hload, hroots, hkey, hsequence⟩ : ∃ doc contents key sequence,
      Document.ofReadings source .v1_2 (events.map .ok) = .ok doc ∧
      roots source (Version.effective source .v1_2) events = [contents] ∧
      doc.resolve? 1 = some key ∧ doc.resolve? 2 = some sequence := ⟨_, _, _, _, rfl, rfl, rfl, rfl⟩
  have hdistinct : DistinctAnchors events := by decide
  obtain ⟨-, -, -, hcontents⟩ := resolution_of_completions hload
  obtain ⟨-, hwithin⟩ := hcontents contents hroots
  exact ⟨doc, contents, key, sequence, hload, hroots, hdistinct, hkey, hsequence,
    (hwithin 1 key hkey).1, (hwithin 1 key hkey).2 hdistinct,
    (hwithin 2 sequence hsequence).1, (hwithin 2 sequence hsequence).2 hdistinct⟩

end LocatedYaml
