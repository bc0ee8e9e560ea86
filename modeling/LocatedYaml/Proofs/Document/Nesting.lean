import LocatedYaml.Proofs.Document.Building
import Mathlib.Data.List.Induction

/-!
# Which rows of events load

What a row of events does to a builder, said of the events alone: which collections it leaves open (`openAfter`),
which of its events is the first that cannot be taken (`fault?`), and which node is the first to be completed outside
all collections (`root?`).  A builder keeps track of all three (`Builder.Tracks`), so a row of events loads exactly when
none of them is at fault and all collections are closed (`Document.loads_iff`, `loading_by_nesting`).
-/

namespace LocatedYaml

/-! ### The first answer in a row of events -/

/-- The first answer that one of the events gives; what is asked of an event may depend on the events before it. -/
def firstFrom? {α : Type} (ask : List MarkedEvent → MarkedEvent → Option α) (before : List MarkedEvent) :
    List MarkedEvent → Option α
  | [] => none
  | e :: events => (ask before e).or (firstFrom? ask (before ++ [e]) events)

/-- The first answer in the whole row. -/
def first? {α : Type} (ask : List MarkedEvent → MarkedEvent → Option α) (events : List MarkedEvent) : Option α :=
  firstFrom? ask [] events

section First

variable {α : Type} {ask : List MarkedEvent → MarkedEvent → Option α}

private theorem firstFrom?_append (before events events' : List MarkedEvent) :
    firstFrom? ask before (events ++ events') =
      (firstFrom? ask before events).or (firstFrom? ask (before ++ events) events') := by
  induction events generalizing before with
  | nil => simp [firstFrom?]
  | cons e events ih => simp [firstFrom?, ih, Option.or_assoc]

theorem first?_append_of_some {events : List MarkedEvent} {a : α} (h : first? ask events = some a)
    (after : List MarkedEvent) : first? ask (events ++ after) = some a := by
  unfold first? at *
  rw [firstFrom?_append, h, Option.some_or]

theorem first?_concat (events : List MarkedEvent) (e : MarkedEvent) :
    first? ask (events ++ [e]) = (first? ask events).or (ask events e) := by
  unfold first?
  rw [firstFrom?_append]
  simp [firstFrom?]

/-- The first answer is one that no event before has an answer to. -/
theorem first?_eq_some {events : List MarkedEvent} {a : α} :
    first? ask events = some a ↔
      ∃ before e after, events = before ++ e :: after ∧ first? ask before = none ∧ ask before e = some a := by
  constructor
  · intro h
    induction events using List.reverseRecOn with
    | nil => cases h
    | append_singleton events e ih =>
      rw [first?_concat] at h
      rcases Option.or_eq_some_iff.1 h with h | ⟨hnone, h⟩
      · obtain ⟨before, e', after, rfl, hnone, ha⟩ := ih h
        exact ⟨before, e', after ++ [e], by simp, hnone, ha⟩
      · exact ⟨events, e, [], rfl, hnone, h⟩
  · rintro ⟨before, e, after, rfl, hnone, ha⟩
    have h : first? ask (before ++ [e]) = some a := by
      rw [first?_concat, hnone, ha, Option.none_or]
    simpa using first?_append_of_some h after

end First

/-! ### Open collections -/

/-- The kinds of collections. -/
inductive Collection where
  | sequence
  | mapping
  deriving DecidableEq, Repr

/-- What is open after an event, innermost first. -/
def Event.nest (event : Event) (opened : List Collection) : List Collection :=
  match event with
  | .sequenceStart _ => .sequence :: opened
  | .mappingStart _ => .mapping :: opened
  -- an end of another kind than the innermost collection is at fault, so it makes no difference what it closes
  | .sequenceEnd | .mappingEnd => opened.tail
  | _ => opened

/-- What a row of events leaves open. -/
def openAfter (events : List MarkedEvent) : List Collection := events.foldl (fun opened e => e.event.nest opened) []

theorem openAfter_concat (events : List MarkedEvent) (e : MarkedEvent) :
    openAfter (events ++ [e]) = e.event.nest (openAfter events) := by
  simp [openAfter]

def Frame.collection : Frame → Collection
  | .sequence .. => .sequence
  | .mapping .. => .mapping

@[simp] theorem Frame.collection_push (node : Node) (frame : Frame) :
    (frame.push node).collection = frame.collection := by
  rcases frame with _ | ⟨_, _, _, _ | _⟩ <;> rfl

/-! ### Faults and roots -/

/-- The failure of an event that comes after the events `before`: a second document, a scalar that contradicts its
tag, or the end of a collection that is not the innermost open one. -/
def fault? (source : Text) (version : Version) (before : List MarkedEvent) (e : MarkedEvent) : Option LoadError :=
  match e.event with
  | .documentStart => if before.any (·.event = .documentStart) then some .multipleDocuments else none
  | .scalar value style _ tag =>
    let tag := tag.map Tag.full
    match Scalar.resolve version style tag value with
    | some _ => none
    | none =>
      some (.invalidTaggedScalar (tag.getD []) value
        (scalarRange source (source.offsetOfIndex e.index) style value))
  | .sequenceEnd => if (openAfter before).head? = some .sequence then none else some (.unbalanced .sequenceEnd)
  | .mappingEnd => if (openAfter before).head? = some .mapping then none else some (.unbalanced .mappingEnd)
  | _ => none

/-- The node that an event completes after the events `before`. -/
def completed? (source : Text) (version : Version) (before : List MarkedEvent) (e : MarkedEvent) : Option Node :=
  (Builder.run source version {} before).toOption.bind fun b => (b.completion? source version e).map Prod.snd

/-- The node that an event completes outside all collections. -/
def root? (source : Text) (version : Version) (before : List MarkedEvent) (e : MarkedEvent) : Option Node :=
  if openAfter (before ++ [e]) = [] then completed? source version before e else none

namespace Builder

variable {source : Text} {version : Version} {b b' : Builder} {e : MarkedEvent} {before : List MarkedEvent}

/-! ### What a builder keeps track of -/

/-- The builder has been through the events `before`. -/
structure Tracks (source : Text) (version : Version) (before : List MarkedEvent) (b : Builder) : Prop where
  run : run source version {} before = .ok b
  opened : b.frames.map Frame.collection = openAfter before
  started : b.started = before.any (·.event = .documentStart)
  root : b.root = first? (root? source version) before

theorem tracks_empty : Tracks source version [] {} := ⟨rfl, rfl, rfl, rfl⟩

theorem Tracks.completed?_eq (hb : Tracks source version before b) :
    completed? source version before e = (b.completion? source version e).map Prod.snd := by
  rw [completed?, hb.run]
  rfl

theorem collections_complete (b : Builder) (node : Node) :
    (b.complete node).frames.map Frame.collection = b.frames.map Frame.collection :=
  map_frames_complete Frame.collection_push b node

private theorem root_complete (b : Builder) (node : Node) :
    (b.complete node).root = b.root.or (if b.frames.map Frame.collection = [] then some node else none) := by
  unfold complete
  cases b.frames <;> simp

private theorem started_complete (b : Builder) (node : Node) : (b.complete node).started = b.started := by
  unfold complete
  cases b.frames <;> rfl

private theorem collections_of_completion? {frames : List Frame} {node : Node}
    (h : b.completion? source version e = some (frames, node)) :
    frames.map Frame.collection = e.event.nest (b.frames.map Frame.collection) ∧ e.event ≠ .documentStart := by
  cases completes_of_completion? h with
  | aliasOf | scalar => exact ⟨rfl, Event.noConfusion⟩
  | sequence hframes | mapping hframes => exact ⟨by rw [hframes]; rfl, Event.noConfusion⟩

private theorem collection_of_opening? {frame : Frame} (h : opening? source e = some frame)
    (opened : List Collection) :
    e.event.nest opened = frame.collection :: opened ∧ e.event ≠ .documentStart := by
  obtain ⟨event, index⟩ := e
  cases event with
  | sequenceStart anchor | mappingStart anchor =>
    obtain rfl := Option.some.inj h
    exact ⟨rfl, Event.noConfusion⟩
  | _ => cases h

private theorem nest_of_isNeutral (h : e.event.isNeutral) (opened : List Collection) :
    e.event.nest opened = opened ∧ e.event ≠ .documentStart := by
  obtain ⟨event, index⟩ := e
  cases event with
  | nothing | streamStart | streamEnd | documentEnd => exact ⟨rfl, Event.noConfusion⟩
  | _ => cases h

private theorem started_concat (hb : Tracks source version before b) (h : e.event ≠ .documentStart) :
    b.started = (before ++ [e]).any (·.event = .documentStart) := by
  simp [hb.started, h]

/-- Where no node is completed, the first root stays what it was. -/
private theorem root_concat (hb : Tracks source version before b) (h : b.completion? source version e = none) :
    b.root = first? (root? source version) (before ++ [e]) := by
  have hnone : root? source version before e = none := by
    simp [root?, hb.completed?_eq, h]
  rw [first?_concat, hnone, Option.or_none, hb.root]

theorem Tracks.next (hb : Tracks source version before b) (h : b.step source version e = .ok b') :
    Tracks source version (before ++ [e]) b' := by
  have hrun : Builder.run source version {} (before ++ [e]) = .ok b' := by
    rw [run_concat, hb.run]
    exact h
  have hopen := openAfter_concat before e
  rw [← hb.opened] at hopen
  cases move_of_step h with
  | @completes frames node hc =>
    obtain ⟨hcollections, hstart⟩ := collections_of_completion? hc
    refine ⟨hrun, ?_, ?_, ?_⟩
    · rw [collections_complete, hcollections, hopen]
    · have hstarted := started_concat hb hstart
      rwa [started_complete]
    · have hcompleted : completed? source version before e = some node := by
        rw [hb.completed?_eq, hc, Option.map_some]
      rw [root_complete, first?_concat, ← hb.root, root?, hopen, hcompleted, ← hcollections]
  | @opens frame ho =>
    obtain ⟨hnest, hstart⟩ := collection_of_opening? ho (b.frames.map Frame.collection)
    have hstarted := started_concat hb hstart
    have hroot := root_concat hb (completion?_of_opening? ho)
    exact ⟨hrun, by rw [hopen, hnest]; rfl, hstarted, hroot⟩
  | starts he hstarted =>
    have hnone : b.completion? source version e = none := by rw [completion?, he]
    have hroot := root_concat hb hnone
    exact ⟨hrun, by rw [hopen, he]; rfl, by simp [he], hroot⟩
  | stays he =>
    obtain ⟨hnest, hstart⟩ := nest_of_isNeutral he (b.frames.map Frame.collection)
    have hroot := root_concat hb (completion?_of_isNeutral he)
    exact ⟨hrun, by rw [hopen, hnest], started_concat hb hstart, hroot⟩

theorem Tracks.step_of_fault? (hb : Tracks source version before b) {error : LoadError}
    (h : fault? source version before e = some error) : b.step source version e = .error error := by
  have hopen := hb.opened
  obtain ⟨event, index⟩ := e
  cases event with
  | documentStart =>
    simp only [fault?] at h
    rw [← hb.started] at h
    split at h
    · rename_i hstarted
      obtain rfl := Option.some.inj h
      simp [step, hstarted]
    · cases h
  | scalar value style anchor tag =>
    simp only [fault?] at h
    split at h
    · cases h
    · rename_i hresolve
      obtain rfl := Option.some.inj h
      simp only [step, scalarNode_of_none hresolve, Except.map]
  | sequenceEnd | mappingEnd =>
    simp only [fault?, ← hopen] at h
    split at h
    · cases h
    · rename_i hhead
      obtain rfl := Option.some.inj h
      simp only [step]
      split
      · rename_i hframes
        simp [hframes, Frame.collection] at hhead
      · rfl
  | _ => cases h

theorem Tracks.exists_step (hb : Tracks source version before b) (h : fault? source version before e = none) :
    ∃ b', b.step source version e = .ok b' := by
  have hopen := hb.opened
  obtain ⟨event, index⟩ := e
  cases event with
  | documentStart =>
    simp only [fault?, ← hb.started] at h
    cases hstarted : b.started with
    | true => simp [hstarted] at h
    | false => exact ⟨{ b with started := true }, by simp [step, hstarted]⟩
  | scalar value style anchor tag =>
    simp only [fault?] at h
    split at h
    · rename_i resolved hresolve
      exact ⟨b.complete _, by simp only [step, scalarNode_of_some hresolve]; rfl⟩
    · cases h
  | sequenceEnd | mappingEnd =>
    simp only [fault?, ← hopen] at h
    split at h
    · rename_i hhead
      cases hframes : b.frames with
      | nil => simp [hframes] at hhead
      | cons frame frames =>
        cases frame <;> simp [hframes, Frame.collection] at hhead
        exact ⟨_, by simp only [step, hframes]; rfl⟩
    · cases h
  | _ => exact ⟨_, rfl⟩

/-- A row of events without a fault leads to a builder that has been through it, and the first fault is the failure of
the row. -/
theorem run_eq (source : Text) (version : Version) (events : List MarkedEvent) :
    match first? (fault? source version) events with
    | some error => run source version {} events = .error error
    | none => ∃ b, Tracks source version events b := by
  induction events using List.reverseRecOn with
  | nil => exact ⟨{}, tracks_empty⟩
  | append_singleton events e ih =>
    rw [first?_concat]
    cases hfirst : first? (fault? source version) events with
    | some error =>
      rw [hfirst] at ih
      rw [Option.some_or, run_concat, ih]
      rfl
    | none =>
      rw [hfirst] at ih
      obtain ⟨b, hb⟩ := ih
      rw [Option.none_or]
      cases hfault : fault? source version events e with
      | some error =>
        rw [run_concat, hb.run]
        exact hb.step_of_fault? hfault
      | none =>
        obtain ⟨b', hstep⟩ := hb.exists_step hfault
        exact ⟨b', hb.next hstep⟩

/-- Neutral events change nothing, wherever they are. -/
theorem run_filter (source : Text) (version : Version) (b : Builder) (events : List MarkedEvent) :
    run source version b (events.filter fun e => !e.event.isNeutral) = run source version b events := by
  induction events generalizing b with
  | nil => rfl
  | cons e events ih =>
    cases he : e.event.isNeutral with
    | false =>
      rw [List.filter_cons_of_pos (by simp [he]), run, List.foldlM_cons, run, List.foldlM_cons]
      exact congrArg (b.step source version e >>= ·) (funext ih)
    | true => rw [List.filter_cons_of_neg (by simp [he]), ih, run_cons_of_step (step_of_isNeutral he)]

end Builder

/-! ### Loading -/

/-- Readings that loading depends on: all but the events that a builder passes over. -/
def Reading.counts : Reading → Bool
  | .ok e => !e.event.isNeutral
  | .error _ => true

namespace Document

variable {source : Text} {version chosen : Version} {events : List MarkedEvent}

theorem ofReadings_of_fault {error : LoadError}
    (h : first? (fault? source (Version.effective source chosen)) events = some error) :
    ofReadings source chosen (events.map .ok) = .error error := by
  have hrun := Builder.run_eq source (Version.effective source chosen) events
  rw [h] at hrun
  rw [ofReadings_map_ok]
  change (Builder.run source _ {} events >>= Builder.finish _) = _
  rw [hrun]
  rfl

private theorem exists_tracks (h : first? (fault? source version) events = none) :
    ∃ b, Builder.Tracks source version events b ∧ ofEvents source version events = b.finish version := by
  have hrun := Builder.run_eq source version events
  rw [h] at hrun
  obtain ⟨b, hb⟩ := hrun
  refine ⟨b, hb, ?_⟩
  change (Builder.run source version {} events >>= Builder.finish version) = _
  rw [hb.run]
  rfl

theorem ofReadings_of_open (h : first? (fault? source (Version.effective source chosen)) events = none)
    (hopen : openAfter events ≠ []) :
    ofReadings source chosen (events.map .ok) = .error (.unbalanced .unterminated) := by
  obtain ⟨b, hb, heq⟩ := exists_tracks h
  rw [← hb.opened] at hopen
  rw [ofReadings_map_ok, heq, Builder.finish]
  cases hframes : b.frames with
  | nil => simp [hframes] at hopen
  | cons frame frames => rfl

theorem exists_ofReadings (h : first? (fault? source (Version.effective source chosen)) events = none)
    (hclosed : openAfter events = []) : ∃ doc, ofReadings source chosen (events.map .ok) = .ok doc ∧
      doc.contents = first? (root? source (Version.effective source chosen)) events := by
  obtain ⟨b, hb, heq⟩ := exists_tracks h
  rw [← hb.opened, List.map_eq_nil_iff] at hclosed
  refine ⟨⟨b.root, Version.effective source chosen, b.anchors⟩, ?_, hb.root⟩
  rw [ofReadings_map_ok, heq, Builder.finish, hclosed]
  rfl

/-- The rows of events that load. -/
theorem loads_iff {readings : List Reading} : (∃ doc, ofReadings source chosen readings = .ok doc) ↔
    ∃ events, readings = events.map .ok ∧
      first? (fault? source (Version.effective source chosen)) events = none ∧ openAfter events = [] := by
  constructor
  · rintro ⟨doc, hdoc⟩
    obtain ⟨events, rfl, -⟩ := exists_events_of_ofReadings hdoc
    refine ⟨events, rfl, ?_⟩
    cases h : first? (fault? source (Version.effective source chosen)) events with
    | some error =>
      rw [ofReadings_of_fault h] at hdoc
      cases hdoc
    | none =>
      refine ⟨rfl, ?_⟩
      by_contra hopen
      rw [ofReadings_of_open h hopen] at hdoc
      cases hdoc
  · rintro ⟨events, rfl, h, hclosed⟩
    obtain ⟨doc, hdoc, -⟩ := exists_ofReadings h hclosed
    exact ⟨doc, hdoc⟩

theorem ofReadings_filter (source : Text) (chosen : Version) (readings : List Reading) :
    ofReadings source chosen (readings.filter Reading.counts) = ofReadings source chosen readings := by
  have hmap : ∀ events : List MarkedEvent, (events.map (Except.ok : MarkedEvent → Reading)).filter Reading.counts =
      (events.filter fun e => !e.event.isNeutral).map .ok := fun events => List.filter_map
  rcases readings_cases readings with ⟨events, rfl⟩ | ⟨before, error, after, rfl⟩
  · rw [hmap, ofReadings_map_ok, ofReadings_map_ok, ofEvents, ofEvents]
    exact congrArg (· >>= Builder.finish _) (Builder.run_filter source _ {} events)
  · rw [List.filter_append, hmap, List.filter_cons_of_pos (show Reading.counts (.error error) = true from rfl),
      ofReadings_of_error, ofReadings_of_error]

end Document

/-- Reading failures come first; then the first event at fault, whatever follows it; then collections left open.  What
is left loads, with the first node completed outside all collections as its contents.  Neutral events make no
difference. -/
theorem loading_by_nesting (source : Text) (chosen : Version) :
    let load := Document.ofReadings source chosen
    let version := Version.effective source chosen
    (∀ (before : List MarkedEvent) error after,
      load (before.map .ok ++ .error error :: after) = .error (.malformed error)) ∧
    (∀ before e after error, first? (fault? source version) before = none →
      fault? source version before e = some error → load ((before ++ e :: after).map .ok) = .error error) ∧
    (∀ events, first? (fault? source version) events = none →
      (load (events.map .ok) = .error (.unbalanced .unterminated) ↔ openAfter events ≠ []) ∧
      (openAfter events = [] → ∃ doc, load (events.map .ok) = .ok doc ∧
        doc.contents = first? (root? source version) events)) ∧
    (∀ readings readings' : List Reading, readings.filter Reading.counts = readings'.filter Reading.counts →
      load readings = load readings') ∧
    ∀ readings, (∃ doc, load readings = .ok doc) ↔
      ∃ events, readings = events.map .ok ∧ first? (fault? source version) events = none ∧ openAfter events = [] := by
  intro load version
  refine ⟨Document.ofReadings_of_error source chosen, fun before e after error hnone h => ?_,
    fun events h => ⟨⟨?_, ?_⟩, ?_⟩, fun readings readings' h => ?_, fun readings => Document.loads_iff⟩
  · exact Document.ofReadings_of_fault (first?_eq_some.2 ⟨before, e, after, rfl, hnone, h⟩)
  · intro herror hclosed
    obtain ⟨doc, hdoc, -⟩ := Document.exists_ofReadings h hclosed
    rw [show load _ = _ from hdoc] at herror
    cases herror
  · exact Document.ofReadings_of_open h
  · exact Document.exists_ofReadings h
  · have h₁ := Document.ofReadings_filter source chosen readings
    have h₂ := Document.ofReadings_filter source chosen readings'
    exact h₁.symm.trans ((congrArg load h).trans h₂)

/-- `[a]` loads; the end of a mapping inside the sequence is at fault, whatever follows it. -/
theorem loading_by_nesting_of_flow_sequence :
    let source : Text := "[a]".toList
    let opening : List MarkedEvent := [⟨.documentStart, 0⟩, ⟨.sequenceStart 0, 0⟩, ⟨.scalar ['a'] .plain 0 none, 1⟩]
    let closed : List MarkedEvent := opening ++ [⟨.sequenceEnd, 2⟩]
    let crossing : MarkedEvent := ⟨.mappingEnd, 2⟩
    (∃ doc, Document.ofReadings source .v1_2 (closed.map .ok) = .ok doc) ∧
    ∀ after, Document.ofReadings source .v1_2 ((opening ++ crossing :: after).map .ok) =
      .error (.unbalanced .mappingEnd) := by
  intro source opening closed crossing
  obtain ⟨-, hfault, hclosed, -, -⟩ := loading_by_nesting source .v1_2
  obtain ⟨doc, hdoc, -⟩ := (hclosed closed rfl).2 rfl
  exact ⟨⟨doc, hdoc⟩, fun after => hfault opening crossing after _ rfl rfl⟩

end LocatedYaml
