import LocatedYaml.Proofs.Document.Building
import LocatedYaml.Proofs.Node.Erasure

/-!
# Loading without places

A builder reads the source for the extents of its nodes only: a step gives, up to places, what it gives with an empty
source and the event at its start (`Builder.erased_step`).  So the places of the events and the text behind them never
reach a value, a tag or an anchor, and never decide whether an event is taken (`Document.erased_ofEvents`).
-/

namespace LocatedYaml

/-! ### Results -/

/-- A result with its value and its failure changed. -/
def mapResult {α β ε δ : Type} (f : α → β) (g : ε → δ) : Except ε α → Except δ β
  | .ok a => .ok (f a)
  | .error e => .error (g e)

section Results

variable {α α' β γ ε δ : Type} {f : α → α'} {g : ε → δ} {x x' : Except ε α}

/-- Equal up to `f` and `g` at first, and from then on: equal in the end. -/
theorem mapResult_bind {h : β → γ} {k k' : α → Except ε β} (hx : mapResult f g x = mapResult f g x')
    (hk : ∀ a a', f a = f a' → mapResult h g (k a) = mapResult h g (k' a')) :
    mapResult h g (x >>= k) = mapResult h g (x' >>= k') := by
  cases x with
  | ok a =>
    cases x' with
    | ok a' => exact hk a a' (Except.ok.inj hx)
    | error e' => cases hx
  | error e =>
    cases x' with
    | ok a' => cases hx
    | error e' => exact congrArg Except.error (Except.error.inj hx)

theorem mapResult_map {h : β → γ} {k k' : α → β} (hx : mapResult f g x = mapResult f g x')
    (hk : ∀ a a', f a = f a' → h (k a) = h (k' a')) : mapResult h g (x.map k) = mapResult h g (x'.map k') :=
  mapResult_bind hx fun a a' ha => congrArg Except.ok (hk a a' ha)

theorem mapResult_mapError {h : β → γ} {k : ε → β} (hx : mapResult f g x = mapResult f g x')
    (hk : ∀ e e', g e = g e' → h (k e) = h (k e')) :
    mapResult f h (x.mapError k) = mapResult f h (x'.mapError k) := by
  cases x with
  | ok a =>
    cases x' with
    | ok a' => exact congrArg Except.ok (Except.ok.inj hx)
    | error e' => cases hx
  | error e =>
    cases x' with
    | ok a' => cases hx
    | error e' => exact congrArg Except.error (hk e e' (Except.error.inj hx))

end Results

/-! ### Builders -/

/-- The collection without its places. -/
def Frame.erased : Frame → Frame
  | .sequence _ anchor items => .sequence 0 anchor (items.map Node.erased)
  | .mapping _ anchor pairs pending => .mapping 0 anchor (pairs.map Pair.erased) (pending.map Node.erased)

@[simp] theorem Frame.erased_erased (frame : Frame) : frame.erased.erased = frame.erased := by
  cases frame <;> simp [erased, Function.comp_def]

theorem Frame.erased_push (node : Node) (frame : Frame) :
    (frame.push node).erased = frame.erased.push node.erased := by
  rcases frame with _ | ⟨_, _, _, _ | _⟩ <;> rfl

/-- The failure without the range that it shows. -/
def LoadError.erased : LoadError → LoadError
  | .invalidTaggedScalar tag value _ => .invalidTaggedScalar tag value none
  | error => error

namespace Builder

/-- The builder without places. -/
def erased (b : Builder) : Builder where
  frames := b.frames.map Frame.erased
  root := b.root.map Node.erased
  anchors := b.anchors.erased
  started := b.started

@[simp] theorem erased_erased (b : Builder) : b.erased.erased = b.erased := by
  simp [erased, Function.comp_def]

theorem erased_complete (b : Builder) (node : Node) : (b.complete node).erased = b.erased.complete node.erased := by
  obtain ⟨frames, root, anchors, started⟩ := b
  cases frames with
  | nil => cases root <;> simp [complete, erased, AnchorTable.erased_record]
  | cons frame frames => simp [complete, erased, AnchorTable.erased_record, Frame.erased_push]

theorem erased_complete_congr (b : Builder) {node node' : Node} (h : node.erased = node'.erased) :
    (b.complete node).erased = (b.erased.complete node').erased := by
  rw [erased_complete, erased_complete, erased_erased, h]

theorem erased_opened_congr (b : Builder) {frame frame' : Frame} (h : frame.erased = frame'.erased) :
    (b.opened frame).erased = (b.erased.opened frame').erased := by
  have hopened : ∀ b frame, (opened b frame).erased = b.erased.opened frame.erased := fun _ _ => rfl
  rw [hopened, hopened, erased_erased, h]

end Builder

/-! ### Nodes from events -/

theorem erased_sequenceNode (source : Text) (start close : Nat) (anchor : Option AnchorId) (items : List Node) :
    (sequenceNode source start close anchor items).erased = .sequence (items.map Node.erased) false anchor none := by
  rw [sequenceNode, Node.erased, Node.erasedItems_eq_map]

theorem erased_mappingNode (source : Text) (found close : Nat) (anchor : Option AnchorId) (pairs : List (Pair Node)) :
    (mappingNode source found close anchor pairs).erased = .mapping (pairs.map Pair.erased) false anchor none := by
  rw [mappingNode, Node.erased, Node.erasedPairs_eq_map]

theorem map_erased_closedPairs (pairs : List (Pair Node)) (pending : Option Node) :
    (closedPairs pairs pending).map Pair.erased = closedPairs (pairs.map Pair.erased) (pending.map Node.erased) := by
  cases pending <;> simp [closedPairs, Pair.erased]

/-- The source only gives a scalar its range. -/
theorem erased_scalarNode (source source' : Text) (version : Version) (found found' : Nat) (value : Text)
    (style : Scalar.Style) (anchor : AnchorId) (tag : Option Tag) :
    mapResult Node.erased LoadError.erased (scalarNode source version found value style anchor tag) =
      mapResult Node.erased LoadError.erased (scalarNode source' version found' value style anchor tag) := by
  cases hresolved : Scalar.resolve version style (tag.map Tag.full) value with
  | none => rw [Builder.scalarNode_of_none hresolved, Builder.scalarNode_of_none hresolved]; rfl
  | some resolved => rw [Builder.scalarNode_of_some hresolved, Builder.scalarNode_of_some hresolved]; rfl

namespace Builder

variable {source source' : Text} {version : Version} {b b' : Builder} {e e' : MarkedEvent}
  {events events' : List MarkedEvent}

/-! ### Steps and runs -/

theorem step_sequenceEnd {start index : Nat} {anchor : Option AnchorId} {items : List Node} {frames : List Frame}
    (h : b.frames = .sequence start anchor items :: frames) :
    b.step source version ⟨.sequenceEnd, index⟩ = .ok (complete { b with frames }
      (sequenceNode source start (source.offsetOfIndex index) anchor items.reverse)) := by
  simp [step, h]

theorem step_mappingEnd {found index : Nat} {anchor : Option AnchorId} {pairs : List (Pair Node)}
    {pending : Option Node} {frames : List Frame} (h : b.frames = .mapping found anchor pairs pending :: frames) :
    b.step source version ⟨.mappingEnd, index⟩ = .ok (complete { b with frames }
      (mappingNode source found (source.offsetOfIndex index) anchor (closedPairs pairs pending))) := by
  simp [step, h]

/-- Up to places, a step does what it does with an empty source and the event at its start. -/
theorem erased_step (source : Text) (version : Version) (b : Builder) (e : MarkedEvent) :
    mapResult erased LoadError.erased (b.step source version e) =
      mapResult erased LoadError.erased (b.erased.step [] version ⟨e.event, 0⟩) := by
  obtain ⟨event, index⟩ := e
  cases event with
  | nothing | streamStart | streamEnd | documentEnd => exact congrArg Except.ok (erased_erased b).symm
  | documentStart =>
    have hstarted : b.erased.started = b.started := rfl
    simp only [step, hstarted]
    split
    · rfl
    · exact congrArg (fun b : Builder => Except.ok { b with started := true }) (erased_erased b).symm
  | aliasOf id => exact congrArg Except.ok (b.erased_complete_congr rfl)
  | scalar value style anchor tag =>
    exact mapResult_map (erased_scalarNode _ _ _ _ _ _ _ _ _) fun _ _ => b.erased_complete_congr
  | sequenceStart anchor | mappingStart anchor => exact congrArg Except.ok (b.erased_opened_congr rfl)
  -- an end that matches the innermost frame closes it on both sides, any other end fails on both sides
  | sequenceEnd =>
    rcases hframes : b.frames with _ | ⟨⟨start, anchor, items⟩ | _, frames⟩
    · simp [step, erased, hframes]
    · rw [step_sequenceEnd hframes, step_sequenceEnd (congrArg (List.map Frame.erased) hframes)]
      refine congrArg Except.ok (erased_complete_congr { b with frames } ?_)
      simp [erased_sequenceNode, Function.comp_def]
    · simp [step, erased, hframes, Frame.erased]
  | mappingEnd =>
    rcases hframes : b.frames with _ | ⟨_ | ⟨start, anchor, pairs, pending⟩, frames⟩
    · simp [step, erased, hframes]
    · simp [step, erased, hframes, Frame.erased]
    · rw [step_mappingEnd hframes, step_mappingEnd (congrArg (List.map Frame.erased) hframes)]
      refine congrArg Except.ok (erased_complete_congr { b with frames } ?_)
      simp [erased_mappingNode, map_erased_closedPairs, Function.comp_def]

/-- Builders that differ in places only do the same with an event, wherever it was found. -/
theorem erased_step_congr (hb : b.erased = b'.erased) (he : e.event = e'.event) :
    mapResult erased LoadError.erased (b.step source version e) =
      mapResult erased LoadError.erased (b'.step source' version e') := by
  rw [erased_step source, erased_step source', hb, he]

/-- So do runs: the builders stay equal up to places, or both runs fail at the same event. -/
theorem erased_run_congr (hb : b.erased = b'.erased)
    (hevents : events.map MarkedEvent.event = events'.map MarkedEvent.event) :
    mapResult erased LoadError.erased (run source version b events) =
      mapResult erased LoadError.erased (run source' version b' events') := by
  induction events generalizing b b' events' with
  | nil =>
    obtain rfl := List.map_eq_nil_iff.1 hevents.symm
    exact congrArg Except.ok hb
  | cons e events ih =>
    obtain ⟨e', events', rfl, he, hevents⟩ := List.map_eq_cons_iff.1 hevents.symm
    exact mapResult_bind (erased_step_congr hb he.symm) fun b₁ b₁' hb₁ => ih hb₁ hevents.symm

end Builder

/-! ### Documents -/

namespace Document

/-- The document without places. -/
def erased (doc : Document) : Document := ⟨doc.contents.map Node.erased, doc.version, doc.anchors.erased⟩

/-- Neither the source nor the places of the events have a part in what is loaded, places apart. -/
theorem erased_ofEvents (source source' : Text) (version : Version) {events events' : List MarkedEvent}
    (hevents : events.map MarkedEvent.event = events'.map MarkedEvent.event) :
    mapResult erased LoadError.erased (ofEvents source version events) =
      mapResult erased LoadError.erased (ofEvents source' version events') := by
  refine mapResult_bind (Builder.erased_run_congr rfl hevents) fun b b' hb => ?_
  have hframes : b.frames.isEmpty = b'.frames.isEmpty := by
    simpa [Builder.erased] using congrArg (·.frames.isEmpty) hb
  have hroot : b.root.map Node.erased = b'.root.map Node.erased := congrArg Builder.root hb
  have hanchors : b.anchors.erased = b'.anchors.erased := congrArg Builder.anchors hb
  unfold Builder.finish
  rw [hframes]
  split
  · simp [mapResult, erased, hroot, hanchors]
  · rfl

end Document

end LocatedYaml
