import LocatedYaml.Document.Builder
import LocatedYaml.Proofs.Node.Inside

/-!
# What a builder does

An event that a builder takes completes a node, opens a collection, begins the document or changes nothing
(`Builder.Move`, `move_of_step`).  A property of builders that every move keeps holds at the end of every run
(`Builder.run_induction`).

A completed collection holds the nodes of its frame and at most one absent value more (`completion?_cases`), so what
passes from the children of a completed node to the node holds of the root and of every anchored node of a loaded
document (`forall_nodes_of_ofEvents`).
-/

namespace LocatedYaml

namespace Frame

/-- The anchor of the collection. -/
def anchor : Frame → Option AnchorId
  | .sequence _ anchor _ => anchor
  | .mapping _ anchor _ _ => anchor

/-- Where the collection was found. -/
def start : Frame → Nat
  | .sequence start _ _ => start
  | .mapping start _ _ _ => start

/-- The nodes that the collection holds so far. -/
def nodes : Frame → List Node
  | .sequence _ _ items => items
  | .mapping _ _ pairs pending => (pairs.flatMap fun pair => [pair.key, pair.value]) ++ pending.toList

@[simp] theorem anchor_push (node : Node) (frame : Frame) : (frame.push node).anchor = frame.anchor := by
  rcases frame with _ | ⟨_, _, _, _ | _⟩ <;> rfl

@[simp] theorem start_push (node : Node) (frame : Frame) : (frame.push node).start = frame.start := by
  rcases frame with _ | ⟨_, _, _, _ | _⟩ <;> rfl

theorem mem_nodes_push {node n : Node} {frame : Frame} :
    n ∈ (frame.push node).nodes ↔ n = node ∨ n ∈ frame.nodes := by
  rcases frame with _ | ⟨_, _, _, _ | key⟩ <;>
    simp [push, nodes, or_comm, or_left_comm]

end Frame

/-- The anchor that an event defines. -/
def Event.anchor : Event → Option AnchorId
  | .scalar _ _ anchor _ | .sequenceStart anchor | .mappingStart anchor => anchorOf anchor
  | _ => none

/-- A tag in its full form. -/
def Tag.full (tag : Tag) : Text := Scalar.fullTag tag.handle tag.suffix

/-- Events that a builder passes over. -/
def Event.isNeutral : Event → Bool
  | .nothing | .streamStart | .streamEnd | .documentEnd => true
  | _ => false

theorem Event.anchor_of_isNeutral {event : Event} (h : event.isNeutral) : event.anchor = none := by
  cases event with
  | scalar | sequenceStart | mappingStart => cases h
  | _ => rfl

namespace Builder

variable {source : Text} {version : Version} {b b' : Builder} {e : MarkedEvent} {events : List MarkedEvent}

/-- The node that an event completes and the collections that stay open around it. -/
def completion? (source : Text) (version : Version) (b : Builder) (e : MarkedEvent) : Option (List Frame × Node) :=
  let found := source.offsetOfIndex e.index
  match e.event with
  | .aliasOf id => some (b.frames, .aliasOf id (some ⟨found, Extent.aliasEnd source found⟩))
  | .scalar value style anchor tag =>
    (scalarNode source version found value style anchor tag).toOption.map fun node => (b.frames, node)
  | .sequenceEnd =>
    match b.frames with
    | .sequence start anchor items :: frames =>
      some (frames, sequenceNode source start found anchor items.reverse)
    | _ => none
  | .mappingEnd =>
    match b.frames with
    | .mapping start anchor pairs pending :: frames =>
      some (frames, mappingNode source start found anchor (closedPairs pairs pending))
    | _ => none
  | _ => none

/-- The collection that an event opens. -/
def opening? (source : Text) (e : MarkedEvent) : Option Frame :=
  match e.event with
  | .sequenceStart anchor => some (.sequence (source.offsetOfIndex e.index) (anchorOf anchor) [])
  | .mappingStart anchor => some (.mapping (source.offsetOfIndex e.index) (anchorOf anchor) [] none)
  | _ => none

/-- What an event that is taken does to a builder. -/
inductive Move (source : Text) (version : Version) (b : Builder) (e : MarkedEvent) : Builder → Prop where
  | completes {frames : List Frame} {node : Node} (h : b.completion? source version e = some (frames, node)) :
    Move source version b e (complete { b with frames } node)
  | opens {frame : Frame} (h : opening? source e = some frame) : Move source version b e (b.opened frame)
  | starts (h : e.event = .documentStart) (hb : b.started = false) :
    Move source version b e { b with started := true }
  | stays (h : e.event.isNeutral) : Move source version b e b

theorem move_of_step (h : b.step source version e = .ok b') : Move source version b e b' := by
  obtain ⟨event, index⟩ := e
  cases event with
  | nothing | streamStart | streamEnd | documentEnd =>
    obtain rfl := Except.ok.inj h
    exact .stays rfl
  | documentStart =>
    by_cases hb : b.started
    · simp [step, hb] at h
    · simp only [step, hb, Bool.false_eq_true, ↓reduceIte, Except.ok.injEq] at h
      subst h
      exact .starts rfl (by simpa using hb)
  | aliasOf id =>
    obtain rfl := Except.ok.inj h
    exact .completes rfl
  | scalar value style anchor tag =>
    simp only [step] at h
    cases hnode : scalarNode source version (source.offsetOfIndex index) value style anchor tag with
    | error error => simp [hnode, Except.map] at h
    | ok node =>
      rw [hnode] at h
      obtain rfl := Except.ok.inj h
      exact .completes (by simp [completion?, hnode, Except.toOption])
  | sequenceStart anchor | mappingStart anchor =>
    obtain rfl := Except.ok.inj h
    exact .opens rfl
  | sequenceEnd | mappingEnd =>
    simp only [step] at h
    split at h
    · rename_i heq
      obtain rfl := Except.ok.inj h
      exact .completes (by simp [completion?, heq])
    · simp at h

theorem step_of_isNeutral (h : e.event.isNeutral) : b.step source version e = .ok b := by
  obtain ⟨event, index⟩ := e
  cases event with
  | nothing | streamStart | streamEnd | documentEnd => rfl
  | _ => cases h

theorem scalarNode_of_some {found : Nat} {value : Text} {style : Scalar.Style} {anchor : AnchorId} {tag : Option Tag}
    {resolved : Scalar.Value} (h : Scalar.resolve version style (tag.map Tag.full) value = some resolved) :
    scalarNode source version found value style anchor tag =
      .ok (.scalar
        ⟨resolved, value, style, tag.map Tag.full, anchorOf anchor, scalarRange source found style value⟩) := by
  unfold Tag.full at h
  simp only [scalarNode, h]
  rfl

theorem scalarNode_of_none {found : Nat} {value : Text} {style : Scalar.Style} {anchor : AnchorId} {tag : Option Tag}
    (h : Scalar.resolve version style (tag.map Tag.full) value = none) :
    scalarNode source version found value style anchor tag =
      .error (.invalidTaggedScalar ((tag.map Tag.full).getD []) value (scalarRange source found style value)) := by
  unfold Tag.full at h
  simp only [scalarNode, h]
  rfl

@[simp] theorem anchors_complete (b : Builder) (node : Node) : (b.complete node).anchors = b.anchors.record node := by
  unfold complete
  cases b.frames <;> rfl

/-- What a frame keeps when it takes one more node stays the same for all frames. -/
theorem map_frames_complete {α : Type} {f : Frame → α} (hf : ∀ node frame, f (Frame.push node frame) = f frame)
    (b : Builder) (node : Node) : (b.complete node).frames.map f = b.frames.map f := by
  unfold complete
  cases b.frames with
  | nil => rfl
  | cons frame frames => simp [hf]

/-- The ways to complete a node. -/
inductive Completes (source : Text) (version : Version) (b : Builder) : MarkedEvent → List Frame → Node → Prop where
  | aliasOf (id : AnchorId) (index : Nat) :
    Completes source version b ⟨.aliasOf id, index⟩ b.frames
      (.aliasOf id (some ⟨source.offsetOfIndex index, Extent.aliasEnd source (source.offsetOfIndex index)⟩))
  | scalar {value : Text} {style : Scalar.Style} {anchor : AnchorId} {tag : Option Tag} {index : Nat}
    {resolved : Scalar.Value} (h : Scalar.resolve version style (tag.map Tag.full) value = some resolved) :
    Completes source version b ⟨.scalar value style anchor tag, index⟩ b.frames
      (.scalar ⟨resolved, value, style, tag.map Tag.full, anchorOf anchor,
        scalarRange source (source.offsetOfIndex index) style value⟩)
  | sequence {start index : Nat} {anchor : Option AnchorId} {items : List Node} {frames : List Frame}
    (h : b.frames = .sequence start anchor items :: frames) :
    Completes source version b ⟨.sequenceEnd, index⟩ frames
      (sequenceNode source start (source.offsetOfIndex index) anchor items.reverse)
  | mapping {start index : Nat} {anchor : Option AnchorId} {pairs : List (Pair Node)} {pending : Option Node}
    {frames : List Frame} (h : b.frames = .mapping start anchor pairs pending :: frames) :
    Completes source version b ⟨.mappingEnd, index⟩ frames
      (mappingNode source start (source.offsetOfIndex index) anchor (closedPairs pairs pending))

theorem completes_of_completion? {frames : List Frame} {node : Node}
    (h : b.completion? source version e = some (frames, node)) : Completes source version b e frames node := by
  obtain ⟨event, index⟩ := e
  cases event with
  | aliasOf id =>
    obtain ⟨rfl, rfl⟩ := Prod.mk.inj (Option.some.inj h)
    exact .aliasOf id index
  | scalar value style anchor tag =>
    obtain ⟨node', hnode, heq⟩ := Option.map_eq_some_iff.1 h
    obtain ⟨rfl, rfl⟩ := Prod.mk.inj heq
    cases hres : Scalar.resolve version style (tag.map Tag.full) value with
    | none => simp [scalarNode_of_none hres, Except.toOption] at hnode
    | some resolved =>
      rw [scalarNode_of_some hres] at hnode
      obtain rfl := Option.some.inj hnode
      exact .scalar hres
  | sequenceEnd =>
    simp only [completion?] at h
    split at h
    · rename_i hframes
      obtain ⟨rfl, rfl⟩ := Prod.mk.inj (Option.some.inj h)
      exact .sequence hframes
    · cases h
  | mappingEnd =>
    simp only [completion?] at h
    split at h
    · rename_i hframes
      obtain ⟨rfl, rfl⟩ := Prod.mk.inj (Option.some.inj h)
      exact .mapping hframes
    · cases h
  | _ => cases h

/-- The children of a completed mapping are the nodes of its frame, and an absent value behind a last key. -/
theorem flatMap_closedPairs_perm (pairs : List (Pair Node)) (pending : Option Node) :
    ∃ n, ((closedPairs pairs pending).flatMap fun pair => [pair.key, pair.value]).Perm
      ((pairs.flatMap fun pair => [pair.key, pair.value]) ++ pending.toList ++ List.replicate n .absent) := by
  have hpairs := (List.reverse_perm pairs).flatMap_right fun pair => [pair.key, pair.value]
  rw [closedPairs, List.flatMap_append]
  cases pending with
  | none => exact ⟨0, by simpa using hpairs⟩
  | some key =>
    refine ⟨1, ?_⟩
    rw [List.append_assoc]
    exact hpairs.append_right _

/-- A completed node that holds other nodes was an open collection, whose nodes it takes over. -/
theorem completion?_cases {frames : List Frame} {node : Node}
    (h : b.completion? source version e = some (frames, node)) :
    (frames = b.frames ∧ node.children = [] ∧ node.anchor = e.event.anchor) ∨
    ∃ frame n, b.frames = frame :: frames ∧ node.anchor = frame.anchor ∧ e.event.anchor = none ∧
      node.children.Perm (frame.nodes ++ List.replicate n .absent) := by
  cases completes_of_completion? h with
  | aliasOf | scalar => exact Or.inl ⟨rfl, rfl, rfl⟩
  | @sequence start index anchor items _ hframes =>
    have hchildren := List.reverse_perm items
    exact Or.inr ⟨_, 0, hframes, rfl, rfl, by rwa [List.replicate_zero, List.append_nil]⟩
  | @mapping start index anchor pairs pending _ hframes =>
    obtain ⟨n, hchildren⟩ := flatMap_closedPairs_perm pairs pending
    exact Or.inr ⟨_, n, hframes, rfl, rfl, hchildren⟩

theorem opening?_eq_some {frame : Frame} (h : opening? source e = some frame) :
    frame.nodes = [] ∧ frame.anchor = e.event.anchor := by
  obtain ⟨event, index⟩ := e
  cases event with
  | sequenceStart anchor | mappingStart anchor =>
    obtain rfl := Option.some.inj h
    exact ⟨rfl, rfl⟩
  | _ => simp [opening?] at h

theorem completion?_of_opening? {frame : Frame} (h : opening? source e = some frame) :
    b.completion? source version e = none := by
  obtain ⟨event, index⟩ := e
  cases event with
  | sequenceStart anchor | mappingStart anchor => rfl
  | _ => cases h

theorem completion?_of_isNeutral (h : e.event.isNeutral) : b.completion? source version e = none := by
  obtain ⟨event, index⟩ := e
  cases event with
  | nothing | streamStart | streamEnd | documentEnd => rfl
  | _ => cases h

/-! ### Runs -/

/-- The builder after a row of events. -/
abbrev run (source : Text) (version : Version) (b : Builder) (events : List MarkedEvent) : Except LoadError Builder :=
  events.foldlM (step source version) b

theorem run_cons_eq_ok : run source version b (e :: events) = .ok b' ↔
    ∃ b₁, b.step source version e = .ok b₁ ∧ run source version b₁ events = .ok b' := by
  rw [run, List.foldlM_cons]
  cases b.step source version e <;> simp [bind, Except.bind]

theorem run_cons_of_step (h : b.step source version e = .ok b') :
    run source version b (e :: events) = run source version b' events := by
  rw [run, List.foldlM_cons, h]
  rfl

theorem run_concat (b : Builder) (events : List MarkedEvent) (e : MarkedEvent) :
    run source version b (events ++ [e]) = run source version b events >>= fun b' => b'.step source version e := by
  rw [run, List.foldlM_append]
  congr 1
  funext b'
  rw [List.foldlM_cons]
  cases b'.step source version e <;> rfl

/-- What every move keeps, with the events still to come in view, holds at the end of a run. -/
theorem run_induction {motive : List MarkedEvent → Builder → Prop}
    (hmove : ∀ e events b b', Move source version b e b' → motive (e :: events) b → motive events b')
    (h : run source version b events = .ok b') (hb : motive events b) : motive [] b' := by
  induction events generalizing b with
  | nil =>
    obtain rfl := Except.ok.inj h
    exact hb
  | cons e events ih =>
    obtain ⟨b₁, hstep, hrun⟩ := run_cons_eq_ok.1 h
    exact ih hrun (hmove e events b b₁ (move_of_step hstep) hb)

/-! ### Properties of the nodes that a builder holds -/

/-- The root, the nodes in open collections and the anchored nodes all have the property. -/
structure Holds (P : Node → Prop) (b : Builder) : Prop where
  root : ∀ node, b.root = some node → P node
  frames : ∀ frame ∈ b.frames, ∀ node ∈ frame.nodes, P node
  anchors : ∀ id node, b.anchors.find? id = some node → P node

variable {P : Node → Prop}

theorem holds_empty : Holds P {} := ⟨by simp, by simp, by simp [AnchorTable.empty, AnchorTable.find?]⟩

theorem Holds.complete {node : Node} (hb : Holds P b) (hnode : P node) : Holds P (b.complete node) := by
  have hanchors : ∀ id n, (b.anchors.record node).find? id = some n → P n := fun id n h => by
    rw [AnchorTable.find?_record] at h
    split at h
    · exact Option.some.inj h ▸ hnode
    · exact hb.anchors id n h
  unfold Builder.complete
  cases hframes : b.frames with
  | nil =>
    refine ⟨fun n h => ?_, by simp, hanchors⟩
    rcases Option.or_eq_some_iff.1 h with h | ⟨-, h⟩
    · exact hb.root n h
    · exact Option.some.inj h ▸ hnode
  | cons frame frames =>
    refine ⟨hb.root, fun f hf n hn => ?_, hanchors⟩
    rcases List.mem_cons.1 hf with rfl | hf
    · rcases Frame.mem_nodes_push.1 hn with rfl | hn
      · exact hnode
      · exact hb.frames frame (by simp [hframes]) n hn
    · exact hb.frames f (by simp [hframes, hf]) n hn

theorem Holds.mono {Q : Node → Prop} (hb : Holds P b) (h : ∀ node, P node → Q node) : Holds Q b :=
  ⟨fun n hn => h n (hb.root n hn), fun f hf n hn => h n (hb.frames f hf n hn),
    fun id n hn => h n (hb.anchors id n hn)⟩

/-- What is left when a completed node leaves its frame. -/
theorem Holds.popped {frames : List Frame} {node : Node} (hb : Holds P b)
    (hc : b.completion? source version e = some (frames, node)) : Holds P { b with frames } := by
  refine ⟨hb.root, fun f hf => hb.frames f ?_, hb.anchors⟩
  rcases completion?_cases hc with ⟨rfl, -⟩ | ⟨frame, _, hframe, -⟩
  · exact hf
  · rw [hframe]
    exact List.mem_cons_of_mem _ hf

theorem Holds.children {frames : List Frame} {node : Node} (hb : Holds P b) (habsent : P .absent)
    (hc : b.completion? source version e = some (frames, node)) : ∀ child ∈ node.children, P child := by
  intro child hchild
  rcases completion?_cases hc with ⟨-, hnone, -⟩ | ⟨frame, _, hframe, -, -, hperm⟩
  · rw [hnone] at hchild
    cases hchild
  · rcases List.mem_append.1 (hperm.mem_iff.1 hchild) with h | h
    · exact hb.frames frame (by simp [hframe]) child h
    · obtain rfl := List.eq_of_mem_replicate h
      exact habsent

theorem Holds.opened {frame : Frame} (hb : Holds P b) (ho : opening? source e = some frame) :
    Holds P (b.opened frame) := by
  refine ⟨hb.root, fun f hf n hn => ?_, hb.anchors⟩
  rcases List.mem_cons.1 hf with rfl | hf
  · simp [(opening?_eq_some ho).1] at hn
  · exact hb.frames f hf n hn

/-- Moves keep a property that passes from the children of a completed node to the node. -/
theorem Holds.move (habsent : P .absent)
    (hP : ∀ frames node, b.completion? source version e = some (frames, node) →
      (∀ child ∈ node.children, P child) → P node)
    (hb : Holds P b) (h : Move source version b e b') : Holds P b' := by
  cases h with
  | completes hc => exact (hb.popped hc).complete (hP _ _ hc (hb.children habsent hc))
  | opens ho => exact hb.opened ho
  | starts => exact ⟨hb.root, hb.frames, hb.anchors⟩
  | stays => exact hb

end Builder

/-! ### Loaded documents -/

namespace Document

variable {source : Text} {version chosen : Version} {events : List MarkedEvent} {doc : Document}

theorem ofEvents_eq_ok : ofEvents source version events = .ok doc ↔
    ∃ b, Builder.run source version {} events = .ok b ∧ b.frames = [] ∧ doc = ⟨b.root, version, b.anchors⟩ := by
  change (Builder.run source version {} events >>= Builder.finish version) = .ok doc ↔ _
  cases hrun : Builder.run source version {} events with
  | error error => simp [bind, Except.bind]
  | ok b =>
    change b.finish version = .ok doc ↔ _
    unfold Builder.finish
    cases hframes : b.frames with
    | nil => simp [hframes, eq_comm]
    | cons frame frames => simp [hframes]

private theorem mapM_id_map_ok (events : List MarkedEvent) :
    (events.map (Except.ok : MarkedEvent → Reading)).mapM id = .ok events := by
  induction events with
  | nil => rfl
  | cons e events ih => rw [List.map_cons, List.mapM_cons, ih]; rfl

theorem ofReadings_map_ok (source : Text) (chosen : Version) (events : List MarkedEvent) :
    ofReadings source chosen (events.map .ok) = ofEvents source (Version.effective source chosen) events := by
  unfold ofReadings
  rw [mapM_id_map_ok]

theorem ofReadings_of_error (source : Text) (chosen : Version) (before : List MarkedEvent) (error : SyntaxError)
    (after : List Reading) :
    ofReadings source chosen (before.map .ok ++ .error error :: after) = .error (.malformed error) := by
  unfold ofReadings
  rw [List.mapM_append, mapM_id_map_ok, List.mapM_cons]
  rfl

/-- A row of readings is free of failures or has a first one. -/
theorem readings_cases (readings : List Reading) :
    (∃ events : List MarkedEvent, readings = events.map .ok) ∨
    ∃ (before : List MarkedEvent) (error : SyntaxError) (after : List Reading),
      readings = before.map .ok ++ .error error :: after := by
  induction readings with
  | nil => exact Or.inl ⟨[], rfl⟩
  | cons reading readings ih =>
    cases reading with
    | error error => exact Or.inr ⟨[], error, readings, rfl⟩
    | ok e =>
      rcases ih with ⟨events, rfl⟩ | ⟨before, error, after, rfl⟩
      · exact Or.inl ⟨e :: events, rfl⟩
      · exact Or.inr ⟨e :: before, error, after, rfl⟩

/-- What loads was read without a failure. -/
theorem exists_events_of_ofReadings {readings : List Reading} (h : ofReadings source chosen readings = .ok doc) :
    ∃ events, readings = events.map .ok ∧ ofEvents source (Version.effective source chosen) events = .ok doc := by
  rcases readings_cases readings with ⟨events, rfl⟩ | ⟨before, error, after, rfl⟩
  · rw [ofReadings_map_ok] at h
    exact ⟨events, rfl, h⟩
  · simp [ofReadings_of_error] at h

/-- What passes from the children of a completed node to the node holds of the contents and of every anchored
node. -/
theorem forall_nodes_of_ofEvents {P : Node → Prop} (habsent : P .absent)
    (hP : ∀ b e frames node, Builder.completion? source version b e = some (frames, node) →
      (∀ child ∈ node.children, P child) → P node)
    (h : ofEvents source version events = .ok doc) :
    (∀ contents, doc.contents = some contents → P contents) ∧ ∀ id node, doc.resolve? id = some node → P node := by
  obtain ⟨b, hrun, -, rfl⟩ := ofEvents_eq_ok.1 h
  have hb : b.Holds P := Builder.run_induction (motive := fun _ b => b.Holds P)
    (fun e _ b₀ _ hmove hb => hb.move habsent (hP b₀ e) hmove) hrun Builder.holds_empty
  exact ⟨hb.root, hb.anchors⟩

end Document

end LocatedYaml
