import LocatedYaml.Proofs.Document.Ranges

/-!
# Ranges and characters

Ranges count bytes, and a range can be cut out of the source when both of its ends are boundaries of characters.  Every
start is one, and so is every end that is read off the source.  Only the end that a block collection has when none of
its children reaches behind its start is a count: one byte, whatever character stands there (`blockEnd_eq`).  Where
that is a character of several bytes, the range of the collection splits it, and so do the ranges of the collections
that end with it (`boundaries_of_loading`).
-/

namespace LocatedYaml

namespace Node

/-- None of the nodes has an end behind `start`. -/
def EndBefore (start : Nat) (children : List Node) : Prop :=
  ∀ child ∈ children, ∀ r, child.range = some r → r.stop ≤ start

/-- A block collection that ends at `stop`, behind the first byte of the character at its start, which has more.  None
of its children ends behind that start. -/
def Splits (source : Text) (stop : Nat) (node : Node) : Prop :=
  node.isBlock ∧ ∃ start c rest, node.range = some ⟨start, stop⟩ ∧ stop = start + 1 ∧
    source.restFrom start = c :: rest ∧ 1 < c.utf8Size ∧ EndBefore start node.children

/-- The range of the node starts at a boundary, and it ends at one or where a collection splits a character that is the
node or stands in it. -/
structure AtBoundaries (source : Text) (node : Node) : Prop where
  start : ∀ r, node.range = some r → source.IsBoundary r.start
  stop : ∀ r, node.range = some r →
    source.IsBoundary r.stop ∨ ∃ inner : Node, inner.Within node ∧ inner.Splits source r.stop

theorem AtBoundaries.of_isSpan {source : Text} {node : Node}
    (hspan : ∀ r, node.range = some r → source.IsSpan r.start r.stop) : node.AtBoundaries source :=
  ⟨fun r hr => (hspan r hr).isBoundary_start, fun r hr => Or.inl (hspan r hr).isBoundary_stop⟩

/-- Where a collection splits a character, there is no boundary. -/
theorem AtBoundaries.not_isBoundary {source : Text} {inner : Node} {stop : Nat} (h : inner.AtBoundaries source)
    (hsplits : inner.Splits source stop) : ¬source.IsBoundary stop := by
  obtain ⟨-, start, c, rest, hr, rfl, hrest, hwide, -⟩ := hsplits
  rw [(h.start _ hr).succ_iff hrest]
  exact hwide.ne'

end Node

/-! ### Ends of collections -/

section CollectionEnd

variable {source : Text} {start close : Nat} {bracket : Char} {flow : Bool}

private theorem exists_restFrom (hstart : source.IsBoundary start) (hlt : start < source.byteLength) :
    ∃ c rest, source.restFrom start = c :: rest := by
  obtain ⟨before, hsource, hlength⟩ := hstart.eq_append_restFrom
  cases hrest : source.restFrom start with
  | nil =>
    rw [hrest, List.append_nil] at hsource
    rw [hsource, hlength] at hlt
    exact absurd hlt (Nat.lt_irrefl start)
  | cons c rest => exact ⟨c, rest, rfl⟩

/-- A collection without a bracket ends with one of its children, else one byte behind its start, or right there at the
end of the source. -/
theorem blockEnd_eq (hstart : source.IsBoundary start) (children : List Node) :
    (∃ child ∈ children, ∃ r, child.range = some r ∧ blockEnd source start children = r.stop) ∨
      blockEnd source start children = start ∨
      Node.EndBefore start children ∧
        ∃ c rest, source.restFrom start = c :: rest ∧ blockEnd source start children = start + 1 := by
  have hle := hstart.le
  have hshort : ∀ n, n ≤ start → blockEnd source start children = max n (min (start + 1) source.byteLength) →
      blockEnd source start children = start ∨
        ∃ c rest, source.restFrom start = c :: rest ∧ blockEnd source start children = start + 1 := by
    intro n hn heq
    rcases Nat.lt_or_ge start source.byteLength with hlt | hge
    · obtain ⟨c, rest, hrest⟩ := exists_restFrom hstart hlt
      exact Or.inr ⟨c, rest, hrest, by omega⟩
    · exact Or.inl (by omega)
  rcases blockEnd_cases source start children with ⟨hnone, heq⟩ | ⟨last, hlast, r, hr, hlatest, heq⟩
  · refine Or.inr ((hshort start (Nat.le_refl start) heq).imp_right fun hend => ⟨fun child hchild r hr => ?_, hend⟩)
    rw [hnone child hchild] at hr
    cases hr
  · by_cases hstop : r.stop ≤ start
    · refine Or.inr ((hshort r.stop hstop heq).imp_right fun hend => ⟨fun child hchild r' hr' => ?_, hend⟩)
      exact Nat.le_trans (hlatest child hchild r' hr') hstop
    · exact Or.inl ⟨last, hlast, r, hr, by omega⟩

theorem collectionEnd_cases (hclose : source.IsBoundary close) (children : List Node) :
    source.IsBoundary (collectionEnd source flow start close bracket children) ∨
      collectionEnd source flow start close bracket children = blockEnd source start children := by
  unfold collectionEnd
  split
  · rename_i stop hstop
    split at hstop
    · exact Or.inl (Extent.flowEnd?_isSpan hclose hstop).isBoundary_stop
    · cases hstop
  · exact Or.inr rfl

/-- One byte behind the start of a collection is a boundary, or the collection splits a character; a flow collection has
a bracket there, which is one byte long. -/
private theorem isBoundary_or_splits {node : Node} {c : Char} {rest : Text}
    (hrange : node.range = some ⟨start, start + 1⟩) (hblock : node.isBlock = !flow) (hstart : source.IsBoundary start)
    (hflow : flow → ∃ c, (source.restFrom start).head? = some c ∧ c.utf8Size = 1)
    (hrest : source.restFrom start = c :: rest) (hchildren : Node.EndBefore start node.children) :
    source.IsBoundary (start + 1) ∨ node.Splits source (start + 1) := by
  by_cases hsize : c.utf8Size = 1
  · exact Or.inl ((hstart.succ_iff hrest).2 hsize)
  · have hblock : node.isBlock := by
      cases flow with
      | false => exact hblock
      | true =>
        obtain ⟨d, hd, hone⟩ := hflow rfl
        rw [hrest] at hd
        cases hd
        exact absurd hone hsize
    have hwide : 1 < c.utf8Size := Nat.lt_of_le_of_ne c.utf8Size_pos (Ne.symm hsize)
    exact Or.inr ⟨hblock, start, c, rest, hrange, rfl, hrest, hwide, hchildren⟩

theorem Node.atBoundaries_collection {node : Node}
    (hrange : node.range = some ⟨start, collectionEnd source flow start close bracket node.children⟩)
    (hblock : node.isBlock = !flow) (hstart : source.IsBoundary start) (hclose : source.IsBoundary close)
    (hflow : flow → ∃ c, (source.restFrom start).head? = some c ∧ c.utf8Size = 1)
    (hchildren : ∀ child ∈ node.children, child.AtBoundaries source) : node.AtBoundaries source := by
  refine ⟨fun r hr => ?_, fun r hr => ?_⟩
  · obtain rfl := Option.some.inj (hrange.symm.trans hr)
    exact hstart
  · obtain rfl := Option.some.inj (hrange.symm.trans hr)
    rcases collectionEnd_cases hclose node.children with hboundary | heq
    · exact Or.inl hboundary
    · rw [heq] at hrange ⊢
      rcases blockEnd_eq hstart node.children with ⟨child, hchild, r, hr, hend⟩ | hend |
        ⟨hbefore, c, rest, hrest, hend⟩
      · rw [hend]
        refine ((hchildren child hchild).stop r hr).imp_right fun ⟨inner, hw, hsplits⟩ => ?_
        exact ⟨inner, .inside hchild hw, hsplits⟩
      · rw [hend]
        exact Or.inl hstart
      · rw [hend] at hrange ⊢
        refine (isBoundary_or_splits hrange hblock hstart hflow hrest hbefore).imp_right fun hsplits => ?_
        exact ⟨node, .refl node, hsplits⟩

end CollectionEnd

/-! ### Completed nodes -/

/-- A mapping starts at a boundary: that of its bracket, or the earlier one of the place where it was found and the
start of its first key. -/
private theorem mappingNode_start {source : Text} {found : Nat} {pairs : List (Pair Node)} (close : Nat)
    (anchor : Option AnchorId) (hfound : source.IsBoundary found)
    (hkeys : ∀ pair ∈ pairs, pair.key.AtBoundaries source) :
    ∃ flow start, source.IsBoundary start ∧
      (flow = true → start = found ∧ (source.restFrom found).head? = some '\x7b') ∧
      mappingNode source found close anchor pairs = .mapping pairs flow anchor (some
        ⟨start, collectionEnd source flow start close '\x7d' (pairs.flatMap fun pair => [pair.key, pair.value])⟩) := by
  unfold mappingNode
  refine ⟨_, _, ?_, fun hflow => ⟨?_, of_decide_eq_true hflow⟩, rfl⟩
  · split
    · rename_i range hrange
      obtain ⟨pair, hpair, hkey⟩ := Option.bind_eq_some_iff.1 hrange
      have hstart := (hkeys pair (List.mem_of_head? hpair)).start range hkey
      split
      · exact hfound
      · rcases Nat.le_total found range.start with hle | hle
        · rwa [Nat.min_eq_left hle]
        · rwa [Nat.min_eq_right hle]
    · exact hfound
  · split
    · exact if_pos (of_decide_eq_true hflow)
    · rfl

namespace Builder

variable {source : Text} {version : Version} {b : Builder} {e : MarkedEvent}

theorem atBoundaries_of_completion? {frames : List Frame} {node : Node}
    (hc : b.completion? source version e = some (frames, node))
    (hframes : ∀ frame ∈ b.frames, source.IsBoundary frame.start)
    (hchildren : ∀ child ∈ node.children, child.AtBoundaries source) : node.AtBoundaries source := by
  have hclose := source.isBoundary_offsetOfIndex e.index
  cases completes_of_completion? hc with
  | aliasOf id index =>
    refine .of_isSpan fun r hr => ?_
    obtain rfl := Option.some.inj hr
    exact Extent.aliasEnd_isSpan hclose
  | scalar h => exact .of_isSpan fun r hr => scalarRange_isSpan hclose hr
  | @sequence start index anchor items _ h =>
    have hstart : source.IsBoundary start := hframes (.sequence start anchor items) (by simp [h])
    refine Node.atBoundaries_collection rfl rfl hstart hclose (fun hflow => ?_) hchildren
    exact ⟨'[', of_decide_eq_true hflow, rfl⟩
  | @mapping start index anchor pairs pending _ h =>
    have hfound : source.IsBoundary start := hframes (.mapping start anchor pairs pending) (by simp [h])
    obtain ⟨flow, start', hstart, hflow, heq⟩ := mappingNode_start (source.offsetOfIndex index) anchor hfound
      fun pair hpair => hchildren pair.key (Node.key_mem_children hpair)
    rw [heq] at hchildren ⊢
    refine Node.atBoundaries_collection rfl rfl hstart hclose (fun hbracket => ?_) hchildren
    obtain ⟨rfl, hhead⟩ := hflow hbracket
    exact ⟨'\x7b', hhead, rfl⟩

theorem atBoundaries_of_run {events : List MarkedEvent} (h : run source version {} events = .ok b) :
    b.Holds (Node.Everywhere (Node.AtBoundaries source)) := by
  have habsent : Node.absent.Everywhere (Node.AtBoundaries source) :=
    .of_children (.of_isSpan fun _ hr => nomatch hr) fun _ hchild => nomatch hchild
  let motive (_ : List MarkedEvent) (b : Builder) : Prop :=
    ∃ starts : List Nat, b.frames.map Frame.start = starts.map source.offsetOfIndex ∧
      b.Holds (Node.Everywhere (Node.AtBoundaries source))
  obtain ⟨-, -, hb⟩ : motive [] b := by
    refine run_induction ?_ h ⟨[], rfl, holds_empty⟩
    rintro e rest b b' hmove ⟨starts, hstarts, hb⟩
    refine ⟨e.nestStart starts, starts_of_move hmove hstarts, ?_⟩
    have hframes : ∀ frame ∈ b.frames, source.IsBoundary frame.start := by
      intro frame hframe
      have hmem := List.mem_map_of_mem (f := Frame.start) hframe
      rw [hstarts] at hmem
      obtain ⟨index, -, hindex⟩ := List.mem_map.1 hmem
      rw [← hindex]
      exact source.isBoundary_offsetOfIndex index
    refine hb.move habsent (fun frames node hc hchildren => ?_) hmove
    exact .of_children (atBoundaries_of_completion? hc hframes fun child hchild => (hchildren child hchild).self)
      hchildren
  exact hb

end Builder

/-! ### Loaded documents -/

theorem Document.atBoundaries_of_ofEvents {source : Text} {version : Version} {events : List MarkedEvent}
    {doc : Document} {node : Node} (h : ofEvents source version events = .ok doc) (hnode : doc.Contains node) :
    node.Everywhere (Node.AtBoundaries source) := by
  obtain ⟨b, hrun, -, rfl⟩ := ofEvents_eq_ok.1 h
  exact hnode.everywhere (Builder.atBoundaries_of_run hrun)

/-- Every range starts at a boundary between characters, and it ends at one unless a collection splits a character
there: the node or a block collection in it, with nothing inside that ends behind its start, whose range is the first
byte of the character.  A range that runs forward between boundaries can be cut out of the source. -/
theorem boundaries_of_loading {source : Text} {chosen : Version} {readings : List Reading} {doc : Document}
    {node : Node} {r : Range} (hload : Document.ofReadings source chosen readings = .ok doc) (hnode : doc.Contains node)
    (hr : node.range = some r) :
    source.IsBoundary r.start ∧
    (source.IsBoundary r.stop ↔ ∀ inner : Node, inner.Within node → ¬inner.Splits source r.stop) ∧
    (r.start ≤ r.stop → source.IsBoundary r.stop → source.IsSpan r.start r.stop) := by
  obtain ⟨events, -, hevents⟩ := Document.exists_events_of_ofReadings hload
  have heverywhere := Document.atBoundaries_of_ofEvents hevents hnode
  have hstart := heverywhere.self.start r hr
  refine ⟨hstart, ⟨fun hstop inner hw hsplits => ?_, fun hnone => ?_⟩, fun hle hstop => hstart.isSpan hstop hle⟩
  · exact (heverywhere inner hw).not_isBoundary hsplits hstop
  · refine (heverywhere.self.stop r hr).resolve_right ?_
    rintro ⟨inner, hw, hsplits⟩
    exact hnone inner hw hsplits

/-- `é: [ü]`: the block mapping ends with the flow sequence in it, behind the bracket. -/
theorem boundaries_of_loading_of_accented_key :
    let source : Text := "é: [ü]".toList
    let readings : List Reading :=
      [⟨.documentStart, 0⟩, ⟨.mappingStart 0, 1⟩, ⟨.scalar ['é'] .plain 0 none, 0⟩, ⟨.sequenceStart 0, 3⟩,
        ⟨.scalar ['ü'] .plain 0 none, 4⟩, ⟨.sequenceEnd, 5⟩, ⟨.mappingEnd, 6⟩, ⟨.documentEnd, 6⟩].map .ok
    ∃ doc contents, Document.ofReadings source .v1_2 readings = .ok doc ∧ doc.Contains contents ∧
      contents.isBlock ∧ contents.range = some ⟨0, 8⟩ ∧ source.IsSpan 0 8 := by
  intro source readings
  obtain ⟨doc, contents, hload, hcontents, hblock, hr⟩ : ∃ doc contents,
      Document.ofReadings source .v1_2 readings = .ok doc ∧ doc.contents = some contents ∧ contents.isBlock ∧
        contents.range = some ⟨0, 8⟩ := ⟨_, _, rfl, rfl, rfl, rfl⟩
  have hnode : doc.Contains contents := Or.inl ⟨contents, hcontents, .refl _⟩
  obtain ⟨-, hstop, hspan⟩ := boundaries_of_loading hload hnode hr
  refine ⟨doc, contents, hload, hnode, hblock, hr, hspan (by decide) (hstop.2 ?_)⟩
  -- a collection that ends there with one byte stands at the bracket, which has no other byte
  rintro inner - ⟨-, start, c, rest, -, heq, hrest, hwide, -⟩
  obtain rfl : 7 = start := Nat.succ.inj heq
  have hbracket : source.restFrom 7 = [']'] := rfl
  rw [hbracket] at hrest
  cases hrest
  exact absurd hwide (by decide)

/-- `- |`, ` éééé`, `- -`, `#é`: behind a block scalar an event can be found later in the text than where it belongs.
The inner sequence is found at the `é` of the comment, and both sequences end behind the first byte of it. -/
theorem range_splits_character :
    let source : Text := "- |\n éééé\n- -\n#é".toList
    let readings : List Reading :=
      [⟨.documentStart, 0⟩, ⟨.sequenceStart 0, 0⟩, ⟨.scalar "éééé\n".toList .literal 0 none, 5⟩, ⟨.sequenceStart 0, 15⟩,
        ⟨.scalar [] .plain 0 none, 19⟩, ⟨.sequenceEnd, 19⟩, ⟨.sequenceEnd, 19⟩, ⟨.documentEnd, 19⟩].map .ok
    ∃ doc contents, Document.ofReadings source .v1_2 readings = .ok doc ∧ doc.contents = some contents ∧
      contents.range = some ⟨0, 20⟩ ∧ ¬source.IsBoundary 20 := by
  intro source readings
  have hrange : (Document.ofReadings source .v1_2 readings).toOption.bind (fun doc => doc.contents.map Node.range) =
      some (some ⟨0, 20⟩) := by decide +kernel
  obtain ⟨doc, hdoc, hcontents⟩ := Option.bind_eq_some_iff.1 hrange
  obtain ⟨contents, hcontents, hr⟩ := Option.map_eq_some_iff.1 hcontents
  refine ⟨doc, contents, ?_, hcontents, hr, by decide +kernel⟩
  cases hload : Document.ofReadings source .v1_2 readings with
  | error e =>
    rw [hload] at hdoc
    cases hdoc
  | ok doc' =>
    rw [hload] at hdoc
    cases hdoc
    rfl

end LocatedYaml
