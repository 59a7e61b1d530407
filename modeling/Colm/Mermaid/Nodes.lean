/-
The nodes of the diagram.  `write` declares the pseudo states and the states
before it writes any edge, and the scan for error nodes and the writing of the
transitions are two walks over the same lists: every node an edge joins is
declared first, an error node exactly for the states with an edge into it, and
an EOF node exactly for the states with an EOF edge.
-/
import Mathlib.Data.Option.Defs
import Colm.Mermaid.Lines

namespace Colm

/-- The node a line declares. -/
def Line.declares : Line → Option NodeId
  | .point id => some id
  | .state n _ => some (.state n)
  | .edge .. => none

/-- The nodes an edge joins. -/
def Line.endpoints : Line → List NodeId
  | .edge src _ dst => [src, dst]
  | _ => []

/-- Whether a line declares a node rather than drawing an edge. -/
def Line.isNode : Line → Bool
  | .edge .. => false
  | _ => true

/-- The nodes declared before the first edge. -/
def declaredNodes (lines : List Line) : List NodeId :=
  (lines.takeWhile Line.isNode).filterMap Line.declares

/-- The targets of a transition, `none` for the error state: the target of a
plain transition, or of each sub-transition. -/
def TransAp.targets : TransAp → List (Option Nat)
  | .tdap _ _ data => [data.toState]
  | .tcap _ _ _ condList => condList.map (·.toState)

/-- The plain, conditional and NFA transitions of the states on the list go
to states on the list. -/
structure TargetsOnList (fsm : FsmAp) : Prop where
  trans : ∀ st ∈ fsm.stateList, ∀ t ∈ (fsm.state st).outList, ∀ p ∈ t.targets, ∀ q ∈ p,
    q ∈ fsm.stateList
  nfa : ∀ st ∈ fsm.stateList, ∀ nfa ∈ (fsm.state st).nfaOut, nfa.toState ∈ fsm.stateList

namespace MermaidGen

variable (g : MermaidGen) {fsm : FsmAp} {src dst : NodeId} {label : String}

/-- The scan of `write` finds an error transition exactly when one of the
transitions has no target. -/
theorem needsErr_iff (state : StateAp) :
    needsErr state = true ↔ ∃ t ∈ state.outList, none ∈ t.targets := by
  simp only [needsErr, List.any_eq_true]
  refine exists_congr fun t => and_congr_right fun _ => ?_
  cases t with
  | tdap lowKey highKey data =>
    simp only [TransAp.targets, List.mem_singleton, Option.isNone_iff_eq_none]
    exact eq_comm
  | tcap lowKey highKey condSpace condList =>
    simp only [TransAp.targets, List.mem_map, List.any_eq_true, Option.isNone_iff_eq_none]

theorem mem_nodeLines {l : Line} :
    l ∈ nodeLines fsm ↔
      (fsm.startState.isSome ∧ l = .point .entry) ∨
      (∃ en ∈ fsm.entryPoints, l = .point (.en (fsm.state en.2).stateNum)) ∨
      (∃ st ∈ fsm.stateList, (fsm.state st).eofActionTable.length > 0 ∧
        l = .point (.eof (fsm.state st).stateNum)) ∨
      (∃ st ∈ fsm.stateList, needsErr (fsm.state st) ∧ l = .point (.err (fsm.state st).stateNum)) ∨
      (∃ st ∈ fsm.stateList, l = .state (fsm.state st).stateNum (fsm.state st).isFinState) := by
  unfold nodeLines
  split <;> simp_all [List.mem_filterMap, @eq_comm Line l, or_assoc]

theorem isNode_of_mem_edgeLines {l : Line} (h : l ∈ g.edgeLines fsm) : l.isNode = false := by
  simp only [edgeLines, transList, List.mem_append, List.mem_flatMap, List.mem_map,
    List.mem_filterMap] at h
  rcases h with (((⟨st, -, ⟨t, -, h⟩ | ⟨nfa, -, rfl⟩⟩ | h) | ⟨en, -, rfl⟩) | ⟨st, -, h⟩)
  · cases t <;> simp only [transApEdges, List.mem_singleton, List.mem_map] at h
    · rw [h]; rfl
    · obtain ⟨_, -, rfl⟩ := h; rfl
  · rfl
  · split at h <;> simp_all [Line.isNode]
  · rfl
  · split at h
    · cases h; rfl
    · cases h

/-- The nodes declared before the first edge are those of the node section. -/
theorem declaredNodes_writeLines :
    declaredNodes (g.writeLines fsm) = (nodeLines fsm).filterMap Line.declares := by
  have hnodes : ∀ l ∈ nodeLines fsm, l.isNode = true := fun l hl => by
    rcases mem_nodeLines.mp hl with ⟨-, rfl⟩ | ⟨_, -, rfl⟩ | ⟨_, -, -, rfl⟩ | ⟨_, -, -, rfl⟩ |
      ⟨_, -, rfl⟩ <;> rfl
  have hedges : (g.edgeLines fsm).takeWhile Line.isNode = [] := by
    cases hl : g.edgeLines fsm with
    | nil => rfl
    | cons l _ =>
      exact List.takeWhile_cons_of_neg (by simp [g.isNode_of_mem_edgeLines (hl ▸ List.mem_cons_self l _)])
  rw [declaredNodes, writeLines, List.takeWhile_append_of_pos hnodes, hedges, List.append_nil]

theorem mem_declaredNodes {id : NodeId} :
    id ∈ declaredNodes (g.writeLines fsm) ↔
      (fsm.startState.isSome ∧ id = .entry) ∨
      (∃ en ∈ fsm.entryPoints, id = .en (fsm.state en.2).stateNum) ∨
      (∃ st ∈ fsm.stateList, (fsm.state st).eofActionTable.length > 0 ∧
        id = .eof (fsm.state st).stateNum) ∨
      (∃ st ∈ fsm.stateList, needsErr (fsm.state st) ∧ id = .err (fsm.state st).stateNum) ∨
      (∃ st ∈ fsm.stateList, id = .state (fsm.state st).stateNum) := by
  rw [declaredNodes_writeLines, List.mem_filterMap]
  constructor
  · rintro ⟨l, hl, hid⟩
    rcases mem_nodeLines.mp hl with ⟨h, rfl⟩ | ⟨en, hen, rfl⟩ | ⟨st, hst, h, rfl⟩ |
      ⟨st, hst, h, rfl⟩ | ⟨st, hst, rfl⟩ <;> cases hid
    · exact .inl ⟨h, rfl⟩
    · exact .inr (.inl ⟨en, hen, rfl⟩)
    · exact .inr (.inr (.inl ⟨st, hst, h, rfl⟩))
    · exact .inr (.inr (.inr (.inl ⟨st, hst, h, rfl⟩)))
    · exact .inr (.inr (.inr (.inr ⟨st, hst, rfl⟩)))
  · rintro (⟨h, rfl⟩ | ⟨en, hen, rfl⟩ | ⟨st, hst, h, rfl⟩ | ⟨st, hst, h, rfl⟩ | ⟨st, hst, rfl⟩)
    · exact ⟨_, mem_nodeLines.mpr (.inl ⟨h, rfl⟩), rfl⟩
    · exact ⟨_, mem_nodeLines.mpr (.inr (.inl ⟨en, hen, rfl⟩)), rfl⟩
    · exact ⟨_, mem_nodeLines.mpr (.inr (.inr (.inl ⟨st, hst, h, rfl⟩))), rfl⟩
    · exact ⟨_, mem_nodeLines.mpr (.inr (.inr (.inr (.inl ⟨st, hst, h, rfl⟩)))), rfl⟩
    · exact ⟨_, mem_nodeLines.mpr (.inr (.inr (.inr (.inr ⟨st, hst, rfl⟩)))), rfl⟩

/-- An edge of one element of `outList` leaves the state for a target of the
transition, or for the error node where the target is null. -/
theorem edge_mem_transApEdges {state : StateAp} {t : TransAp}
    (h : Line.edge src label dst ∈ g.transApEdges fsm state t) :
    ∃ trans : TransData, trans.toState ∈ t.targets ∧ src = .state state.stateNum ∧
      dst = match trans.toState with
        | none => .err state.stateNum
        | some q => .state (fsm.state q).stateNum := by
  cases t with
  | tdap lowKey highKey data =>
    simp only [transApEdges, List.mem_singleton, transEdge, Line.edge.injEq] at h
    exact ⟨data, List.mem_singleton_self _, h.1, h.2.2⟩
  | tcap lowKey highKey condSpace condList =>
    simp only [transApEdges, List.mem_map] at h
    obtain ⟨ctel, hctel, h⟩ := h
    simp only [transEdge, Line.edge.injEq] at h
    exact ⟨ctel.toTransData, List.mem_map_of_mem _ hctel, h.1.symm, h.2.2.symm⟩

/-- What an edge of `transList` joins: its state, and a target of one of its
transitions, an NFA target, or its error node when the scan of `write` finds
an error transition. -/
theorem edge_mem_transList_cases {st : Nat} (h : Line.edge src label dst ∈ g.transList fsm st) :
    src = .state (fsm.state st).stateNum ∧
      ((∃ t ∈ (fsm.state st).outList, ∃ q, some q ∈ t.targets ∧
          dst = .state (fsm.state q).stateNum) ∨
        (∃ nfa ∈ (fsm.state st).nfaOut, dst = .state (fsm.state nfa.toState).stateNum) ∨
        (needsErr (fsm.state st) = true ∧ dst = .err (fsm.state st).stateNum)) := by
  rcases (g.edge_mem_transList).mp h with ⟨t, ht, h⟩ | ⟨nfa, hnfa, rfl, -, rfl⟩
  · obtain ⟨trans, htarget, rfl, rfl⟩ := g.edge_mem_transApEdges h
    refine ⟨rfl, ?_⟩
    cases hq : trans.toState with
    | none => exact .inr (.inr ⟨(needsErr_iff _).mpr ⟨t, ht, hq ▸ htarget⟩, rfl⟩)
    | some q => exact .inl ⟨t, ht, q, hq ▸ htarget, rfl⟩
  · exact ⟨rfl, .inr (.inl ⟨nfa, hnfa, rfl⟩)⟩

/-- A state the scan marks has an edge to its error node. -/
theorem err_edge_of_needsErr {st : Nat} (h : needsErr (fsm.state st) = true) :
    ∃ label, Line.edge (.state (fsm.state st).stateNum) label (.err (fsm.state st).stateNum) ∈
      g.transList fsm st := by
  obtain ⟨t, ht, hnone⟩ := (needsErr_iff _).mp h
  have hedge : ∃ label, Line.edge (.state (fsm.state st).stateNum) label
      (.err (fsm.state st).stateNum) ∈ g.transApEdges fsm (fsm.state st) t := by
    cases t with
    | tdap lowKey highKey data =>
      simp only [TransAp.targets, List.mem_singleton] at hnone
      refine ⟨fromStateAction (fsm.state st) ++ g.onChar lowKey highKey none 0 ++
        transAction fsm data, List.mem_singleton.mpr ?_⟩
      rw [transEdge, ← hnone]
    | tcap lowKey highKey condSpace condList =>
      simp only [TransAp.targets, List.mem_map] at hnone
      obtain ⟨ctel, hctel, hctelNone⟩ := hnone
      exact ⟨_, List.mem_map.mpr ⟨ctel, hctel, by rw [transEdge, hctelNone]⟩⟩
  obtain ⟨label, hlabel⟩ := hedge
  exact ⟨label, List.mem_append_left _ (List.mem_flatMap.mpr ⟨t, ht, hlabel⟩)⟩

section Declared

variable {g}

/-- Both ends of every edge of `write` are declared before the first edge. -/
theorem edge_endpoints_declared (hfsm : TargetsOnList fsm)
    (h : Line.edge src label dst ∈ g.writeLines fsm) :
    src ∈ declaredNodes (g.writeLines fsm) ∧ dst ∈ declaredNodes (g.writeLines fsm) := by
  have hstate : ∀ st ∈ fsm.stateList,
      NodeId.state (fsm.state st).stateNum ∈ declaredNodes (g.writeLines fsm) :=
    fun st hst => g.mem_declaredNodes.mpr (.inr (.inr (.inr (.inr ⟨st, hst, rfl⟩))))
  rcases (g.edge_mem_writeLines).mp h with
    ⟨st, hst, h⟩ | ⟨s, hs, rfl, -, rfl⟩ | ⟨en, hen, rfl, -, rfl⟩ | ⟨st, hst, heof, rfl, -, rfl⟩
  · obtain ⟨rfl, hdst⟩ := g.edge_mem_transList_cases h
    refine ⟨hstate st hst, ?_⟩
    rcases hdst with ⟨t, ht, q, hq, rfl⟩ | ⟨nfa, hnfa, rfl⟩ | ⟨herr, rfl⟩
    · exact hstate q (hfsm.trans st hst t ht _ hq q rfl)
    · exact hstate _ (hfsm.nfa st hst nfa hnfa)
    · exact g.mem_declaredNodes.mpr (.inr (.inr (.inr (.inl ⟨st, hst, herr, rfl⟩))))
  · have hstart : fsm.startState.isSome := by rw [Option.mem_def.mp hs]; rfl
    exact ⟨g.mem_declaredNodes.mpr (.inl ⟨hstart, rfl⟩), hstate s (fsm.startState_mem s hs)⟩
  · exact ⟨g.mem_declaredNodes.mpr (.inr (.inl ⟨en, hen, rfl⟩)),
      hstate _ (fsm.entryPoints_mem en hen)⟩
  · exact ⟨hstate st hst,
      g.mem_declaredNodes.mpr (.inr (.inr (.inl ⟨st, hst, Nat.pos_of_ne_zero heof, rfl⟩)))⟩

/-- `write` declares `err_N` exactly when `transList` draws an edge from the
state numbered `N` to it. -/
theorem err_mem_declaredNodes_iff (n : Int) :
    NodeId.err n ∈ declaredNodes (g.writeLines fsm) ↔
      ∃ st ∈ fsm.stateList, ∃ label, Line.edge (.state n) label (.err n) ∈ g.transList fsm st := by
  rw [mem_declaredNodes]
  constructor
  · rintro (⟨-, h⟩ | ⟨_, -, h⟩ | ⟨_, -, -, h⟩ | ⟨st, hst, herr, h⟩ | ⟨_, -, h⟩) <;> cases h
    exact ⟨st, hst, g.err_edge_of_needsErr herr⟩
  · rintro ⟨st, hst, label, h⟩
    rcases (g.edge_mem_transList_cases h).2 with ⟨_, _, _, _, hd⟩ | ⟨_, _, hd⟩ | ⟨herr, hd⟩ <;>
      cases hd
    exact .inr (.inr (.inr (.inl ⟨st, hst, herr, rfl⟩)))

/-- `write` declares `eof_N` exactly when the state numbered `N` has an EOF
edge. -/
theorem eof_mem_declaredNodes_iff (n : Int) :
    NodeId.eof n ∈ declaredNodes (g.writeLines fsm) ↔
      ∃ label, Line.edge (.state n) label (.eof n) ∈ g.writeLines fsm := by
  rw [mem_declaredNodes]
  constructor
  · rintro (⟨-, h⟩ | ⟨_, -, h⟩ | ⟨st, hst, heof, h⟩ | ⟨_, -, -, h⟩ | ⟨_, -, h⟩) <;> cases h
    exact ⟨_, (g.edge_mem_writeLines).mpr
      (.inr (.inr (.inr ⟨st, hst, Nat.pos_iff_ne_zero.mp heof, rfl, rfl, rfl⟩)))⟩
  · rintro ⟨label, h⟩
    rcases (g.edge_mem_writeLines).mp h with
      ⟨st, -, h⟩ | ⟨_, _, _, _, hd⟩ | ⟨_, _, _, _, hd⟩ | ⟨st, hst, heof, _, _, hd⟩
    · rcases (g.edge_mem_transList_cases h).2 with ⟨_, _, _, _, hd⟩ | ⟨_, _, hd⟩ | ⟨_, hd⟩ <;>
        cases hd
    · cases hd
    · cases hd
    · cases hd
      exact .inr (.inr (.inl ⟨st, hst, Nat.pos_of_ne_zero heof, rfl⟩))

/-- Every node an edge of `write` joins is declared in the node section,
before the first edge; `err_N` is declared exactly when `transList` draws an
edge from state `N` to it, and `eof_N` exactly when state `N` has an EOF
edge.  These lines are what `write` emits: when no name holds a newline, its
text read back at its newlines is the header, the text of each of these lines
in order, and the closing empty line. -/
theorem writeLines_endpoints_declared (hfsm : TargetsOnList fsm) :
    (∀ l ∈ g.writeLines fsm, ∀ id ∈ l.endpoints, id ∈ declaredNodes (g.writeLines fsm)) ∧
      (∀ n, NodeId.err n ∈ declaredNodes (g.writeLines fsm) ↔
        ∃ st ∈ fsm.stateList, ∃ label, Line.edge (.state n) label (.err n) ∈ g.transList fsm st) ∧
      (∀ n, NodeId.eof n ∈ declaredNodes (g.writeLines fsm) ↔
        ∃ label, Line.edge (.state n) label (.eof n) ∈ g.writeLines fsm) ∧
      (Avoids '\n' g.fsmName → NamesAvoid '\n' g fsm →
        (g.write fsm).data.splitOn '\n' =
          ["---".data, ("title: " ++ g.fsmName).data, "---".data, "flowchart LR".data] ++
            (g.writeLines fsm).map (fun l : Line => l.text.data) ++ [[], []]) := by
  refine ⟨fun l hl id hid => ?_, err_mem_declaredNodes_iff, eof_mem_declaredNodes_iff,
    fun hname hnames => ?_⟩
  · cases l with
    | edge src label dst =>
      have hends := edge_endpoints_declared hfsm hl
      simp only [Line.endpoints, List.mem_cons, List.mem_singleton, List.not_mem_nil, or_false] at hid
      rcases hid with rfl | rfl
      · exact hends.1
      · exact hends.2
    | point _ => simp [Line.endpoints] at hid
    | state _ _ => simp [Line.endpoints] at hid
  · rw [write_data, splitOn_flatMap_append (write_lines_avoid_newline hname hnames),
      List.append_assoc]
    rfl

end Declared

end MermaidGen

/-- A machine with a plain transition, a conditional one whose one
sub-transition goes to the error state, an NFA transition, an entry point and
an EOF action. -/
def diagramFsm : FsmAp :=
  { state := fun p => if p = 0 then
      { stateNum := 0, isFinState := false,
        outList := [.tdap 97 122 ⟨["a1"], some 1⟩,
          .tcap 48 57 ["c"] [{ actionTable := [], toState := none, key := 1 }]],
        nfaOut := [⟨0, [], [], [], [], 1⟩], fromStateActionTable := [], toStateActionTable := [],
        eofActionTable := [], outCondSpace := none, outCondKeys := [] }
    else
      { stateNum := 1, isFinState := true, outList := [], nfaOut := [],
        fromStateActionTable := [], toStateActionTable := [], eofActionTable := ["done"],
        outCondSpace := none, outCondKeys := [] },
    stateList := [0, 1], entryPoints := [(5, 1)], startState := some 0,
    startState_mem := by decide, entryPoints_mem := by decide }

/-- The writer for `diagramFsm`, keys as numbers. -/
def diagramGen : MermaidGen :=
  { fsmName := "m", displayPrintables := false, keyOps := ⟨false, 0, 255⟩,
    isPrintable := fun _ => false, nameIndex := fun _ => ["main"] }

theorem writeLines_endpoints_declared_diagram :
    TargetsOnList diagramFsm ∧ Avoids '\n' diagramGen.fsmName ∧
      MermaidGen.NamesAvoid '\n' diagramGen diagramFsm ∧
      (∀ l ∈ diagramGen.writeLines diagramFsm, ∀ id ∈ l.endpoints,
        id ∈ declaredNodes (diagramGen.writeLines diagramFsm)) ∧
      (∀ n, NodeId.err n ∈ declaredNodes (diagramGen.writeLines diagramFsm) ↔
        ∃ st ∈ diagramFsm.stateList, ∃ label,
          Line.edge (.state n) label (.err n) ∈ diagramGen.transList diagramFsm st) ∧
      (∀ n, NodeId.eof n ∈ declaredNodes (diagramGen.writeLines diagramFsm) ↔
        ∃ label, Line.edge (.state n) label (.eof n) ∈ diagramGen.writeLines diagramFsm) ∧
      (Avoids '\n' diagramGen.fsmName → MermaidGen.NamesAvoid '\n' diagramGen diagramFsm →
        (diagramGen.write diagramFsm).data.splitOn '\n' =
          ["---".data, ("title: " ++ diagramGen.fsmName).data, "---".data, "flowchart LR".data] ++
            (diagramGen.writeLines diagramFsm).map (fun l : Line => l.text.data) ++ [[], []]) :=
  have htargets : TargetsOnList diagramFsm := ⟨by decide, by decide⟩
  have hnames : MermaidGen.NamesAvoid '\n' diagramGen diagramFsm :=
    ⟨fun p => if hp : p = 0 then by subst hp; decide else by simp only [diagramFsm, if_neg hp]; decide,
      fun _ => by simp only [diagramGen]; decide⟩
  ⟨htargets, by decide, hnames, MermaidGen.writeLines_endpoints_declared htargets⟩

end Colm
