/-
The Mermaid diagram writer `MermaidGen` of `mermaid.cc`.  The machine is a
heap of states reached through pointers.  `write` emits one line per node
declaration and one per edge: the model keeps each line as data (`Line`) and
renders it to the text the source streams to `out`.
-/
import Mathlib.Data.Int.Bitwise
import Colm.Key

namespace Colm

/-- `TransData`, as the writer reads it: the names that `actionName` writes
for the actions of `actionTable`, in order, and the target pointer (`none`
for the null). -/
structure TransData where
  actionTable : List String
  toState : Option Nat
deriving DecidableEq, Repr

/-- `CondAp`: one sub-transition of a conditional transition. -/
structure CondAp extends TransData where
  key : Int
deriving DecidableEq, Repr

/-- `TransAp`: a key range with one plain transition (`TransDataAp`, no
condition space) or with sub-transitions keyed by conditions (`TransCondAp`,
whose condition space is given by the names of its `condSet`). -/
inductive TransAp
  | tdap (lowKey highKey : Int) (data : TransData)
  | tcap (lowKey highKey : Int) (condSpace : List String) (condList : List CondAp)
deriving DecidableEq, Repr

/-- An NFA transition of `nfaOut`. -/
structure NfaTrans where
  order : Int
  popCondSpace : List String
  popCondKeys : List Int
  popAction : List String
  popTest : List String
  toState : Nat
deriving DecidableEq, Repr

/-- `StateAp`, with the fields the writer reads. -/
structure StateAp where
  stateNum : Int
  isFinState : Bool
  outList : List TransAp
  nfaOut : List NfaTrans
  fromStateActionTable : List String
  toStateActionTable : List String
  eofActionTable : List String
  outCondSpace : Option (List String)
  outCondKeys : List Int
deriving DecidableEq, Repr

/-- `FsmAp`: the state each pointer points to, the state list, the entry
points (entry id and state) and the start state.  The start state and the
entry points are states of the machine, on its state list. -/
structure FsmAp where
  state : Nat → StateAp
  stateList : List Nat
  entryPoints : List (Int × Nat)
  startState : Option Nat
  startState_mem : ∀ s ∈ startState, s ∈ stateList
  entryPoints_mem : ∀ en ∈ entryPoints, en.2 ∈ stateList

/-- `MermaidGen`, with the inputs `write` reads besides the machine.
`Key::isPrintable` is not among the sources and is a parameter; `nameIndex`
gives for each entry id the names of its name instance and its parents, its
own first. -/
structure MermaidGen where
  fsmName : String
  displayPrintables : Bool
  keyOps : KeyOps
  isPrintable : Int → Bool
  nameIndex : Int → List String

/-- A node of the diagram, as `write` names it. -/
inductive NodeId
  | entry
  | en (n : Int)
  | eof (n : Int)
  | err (n : Int)
  | state (n : Int)
deriving DecidableEq, Repr

/-- The identifier written for a node. -/
def NodeId.render : NodeId → String
  | .entry => "ENTRY"
  | .en n => "en_" ++ toString n
  | .eof n => "eof_" ++ toString n
  | .err n => "err_" ++ toString n
  | .state n => toString n

/-- A line of the diagram: a pseudo state drawn as a point, a state drawn as
a circle (a double circle when final), or a labelled edge. -/
inductive Line
  | point (id : NodeId)
  | state (n : Int) (final : Bool)
  | edge (src : NodeId) (label : String) (dst : NodeId)
deriving DecidableEq, Repr

/-- The text of a line. -/
def Line.render : Line → String
  | .point id => "\t" ++ id.render ++ "(( ))\n"
  | .state n final =>
    "\t" ++ toString n ++
      (if final then "(((" ++ toString n ++ ")))" else "((" ++ toString n ++ "))") ++ "\n"
  | .edge src label dst => "\t" ++ src.render ++ " -->|\"" ++ label ++ "\"| " ++ dst.render ++ "\n"

namespace MermaidGen

/-- A loop over an action table that writes each name, followed by `sep`
unless it is the last. -/
def actionNames (sep : String) : List String → String
  | [] => ""
  | name :: rest => name ++ (if rest.isEmpty then "" else sep) ++ actionNames sep rest

/-- The loop of `condSpec` over `condSet` from position `pos`: each condition,
after `!` where its bit of `condVals` is clear, followed by `, ` unless it is
the last. -/
def condItems (condVals : Int) : Nat → List String → String
  | _, [] => ""
  | pos, name :: rest =>
    (if condVals.testBit pos then "" else "!") ++ name ++ (if rest.isEmpty then "" else ", ") ++
      condItems condVals (pos + 1) rest

/-- `MermaidGen::condSpec`. -/
def condSpec (condSpace : Option (List String)) (condVals : Int) : String :=
  match condSpace with
  | none => ""
  | some condSet => "(" ++ condItems condVals 0 condSet ++ ")"

variable (g : MermaidGen)

/-- `MermaidGen::key`.  A printable key is written as the character
`(char) key.getVal()`, its low byte.  The writer's text is modelled as a
`String` whose characters stand for the bytes the stream receives: the byte
`cVal` is the character of code `cVal`, so a byte from 128 to 255 is one
character here where the stream holds it raw; no newline or quote depends on
those bytes. -/
def key (k : Int) : String :=
  if g.displayPrintables && g.isPrintable k then
    let cVal := (k % 256).toNat
    match cVal with
    | 34 | 92 => "'\\" ++ (Char.ofNat cVal).toString ++ "'"
    | 7 => "'\\\\a'"
    | 8 => "'\\\\b'"
    | 9 => "'\\\\t'"
    | 10 => "'\\\\n'"
    | 11 => "'\\\\v'"
    | 12 => "'\\\\f'"
    | 13 => "'\\\\r'"
    | 32 => "SP"
    | _ => "'" ++ (Char.ofNat cVal).toString ++ "'"
  else if g.keyOps.isSigned then toString k
  else toString (k % 2 ^ 64).toNat

/-- `MermaidGen::onChar`. -/
def onChar (lowKey highKey : Int) (condSpace : Option (List String)) (condVals : Int) : String :=
  g.key lowKey ++ (if g.keyOps.ne highKey lowKey then ".." ++ g.key highKey else "") ++
    condSpec condSpace condVals

/-- `MermaidGen::fromStateAction`. -/
def fromStateAction (fromState : StateAp) : String :=
  actionNames ", " fromState.fromStateActionTable ++
    (if fromState.fromStateActionTable.length ≠ 0 then " / " else "")

/-- `MermaidGen::transAction`: the transition's actions, then those of its
target state on entry, each table taken only when not empty. -/
def transAction (fsm : FsmAp) (trans : TransData) : String :=
  let actionTables :=
    (if trans.actionTable.length ≠ 0 then [trans.actionTable] else []) ++
      match trans.toState with
      | some t =>
        if (fsm.state t).toStateActionTable.length ≠ 0 then [(fsm.state t).toStateActionTable]
        else []
      | none => []
  (if actionTables.length > 0 then " / " else "") ++ actionNames ", " actionTables.flatten

/-- `MermaidGen::action`. -/
def action (actionTable : List String) : String :=
  " / " ++ actionNames ", " actionTable

/-- The edge `transList` writes for a plain transition or for one
sub-transition of a conditional one. -/
def transEdge (fsm : FsmAp) (state : StateAp) (lowKey highKey : Int)
    (condSpace : Option (List String)) (condVals : Int) (trans : TransData) : Line :=
  .edge (.state state.stateNum)
    (fromStateAction state ++ g.onChar lowKey highKey condSpace condVals ++ transAction fsm trans)
    (match trans.toState with
     | none => .err state.stateNum
     | some t => .state (fsm.state t).stateNum)

/-- The edges of one element of `outList`. -/
def transApEdges (fsm : FsmAp) (state : StateAp) : TransAp → List Line
  | .tdap lowKey highKey tdap => [g.transEdge fsm state lowKey highKey none 0 tdap]
  | .tcap lowKey highKey condSpace condList =>
    condList.map fun ctel => g.transEdge fsm state lowKey highKey (some condSpace) ctel.key
      ctel.toTransData

/-- The label of an NFA transition. -/
def nfaLabel (state : StateAp) (nfa : NfaTrans) : String :=
  "EP," ++ toString nfa.order ++ " " ++ fromStateAction state ++
    String.join (nfa.popCondKeys.map fun condVals =>
      "(" ++ condItems condVals 0 nfa.popCondSpace ++ ") ") ++
    actionNames "," nfa.popAction ++ actionNames "," nfa.popTest

/-- `MermaidGen::transList( state )`. -/
def transList (fsm : FsmAp) (st : Nat) : List Line :=
  (fsm.state st).outList.flatMap (g.transApEdges fsm (fsm.state st)) ++
    (fsm.state st).nfaOut.map fun nfa =>
      .edge (.state (fsm.state st).stateNum) (nfaLabel (fsm.state st) nfa)
        (.state (fsm.state nfa.toState).stateNum)

/-- `MermaidGen::makeNameInst( res, nameInst )`, for the name instance whose
names, up to the root, are `nameInst`: the new `res` and `written`. -/
def makeNameInst (res : String) : List String → String × Bool
  | [] => (res, false)
  | name :: parents =>
    let (res, written) := makeNameInst res parents
    if name.isEmpty then (res, written)
    else ((if written then res.push '_' else res) ++ name, true)

/-- The loop of `write` over `outCondKeys`: each condition set, after `|`
unless it is the first. -/
def eofConds (condSpace : Option (List String)) : Nat → List Int → String
  | _, [] => ""
  | pos, condVals :: rest =>
    (if pos > 0 then "|" else "") ++ condSpec condSpace condVals ++ eofConds condSpace (pos + 1) rest

/-- The label of the EOF edge of a state. -/
def eofLabel (state : StateAp) : String :=
  "EOF" ++ eofConds state.outCondSpace 0 state.outCondKeys ++ action state.eofActionTable

/-- The scan of `write` for a state whose transitions go to the error state:
a plain transition or a sub-transition with a null target. -/
def needsErr (state : StateAp) : Bool :=
  state.outList.any fun
    | .tdap _ _ tdap => tdap.toState.isNone
    | .tcap _ _ _ condList => condList.any fun ctel => ctel.toState.isNone

/-- The lines `write` emits before the transitions: the pseudo states for
the start, the entry points, the EOF actions and the errors, then the
states. -/
def nodeLines (fsm : FsmAp) : List Line :=
  (if fsm.startState.isSome then [.point .entry] else []) ++
    fsm.entryPoints.map (fun en => .point (.en (fsm.state en.2).stateNum)) ++
    fsm.stateList.filterMap (fun st =>
      if (fsm.state st).eofActionTable.length > 0 then some (.point (.eof (fsm.state st).stateNum))
      else none) ++
    fsm.stateList.filterMap (fun st =>
      if needsErr (fsm.state st) then some (.point (.err (fsm.state st).stateNum)) else none) ++
    fsm.stateList.map (fun st => .state (fsm.state st).stateNum (fsm.state st).isFinState)

/-- The lines `write` emits from the transitions on: the transitions of each
state, the edge into the start state, the edges into the entry points and
the EOF edges. -/
def edgeLines (fsm : FsmAp) : List Line :=
  fsm.stateList.flatMap (g.transList fsm) ++
    (match fsm.startState with
     | some s => [.edge .entry "IN" (.state (fsm.state s).stateNum)]
     | none => []) ++
    fsm.entryPoints.map (fun en =>
      .edge (.en (fsm.state en.2).stateNum) (makeNameInst "" (g.nameIndex en.1)).1
        (.state (fsm.state en.2).stateNum)) ++
    fsm.stateList.filterMap (fun st =>
      if (fsm.state st).eofActionTable.length ≠ 0 then
        some (.edge (.state (fsm.state st).stateNum) (eofLabel (fsm.state st))
          (.eof (fsm.state st).stateNum))
      else none)

/-- The lines of `MermaidGen::write`, between its header and its last
newline. -/
def writeLines (fsm : FsmAp) : List Line :=
  nodeLines fsm ++ g.edgeLines fsm

/-- `MermaidGen::write( )`: the text written to `out`. -/
def write (fsm : FsmAp) : String :=
  "---\ntitle: " ++ g.fsmName ++ "\n---\nflowchart LR\n" ++
    String.join ((g.writeLines fsm).map Line.render) ++ "\n"

section Lines

variable {fsm : FsmAp} {src dst : NodeId} {label : String}

/-- The edges of `transList`: those of the transitions, then the NFA ones. -/
theorem edge_mem_transList {st : Nat} :
    Line.edge src label dst ∈ g.transList fsm st ↔
      (∃ t ∈ (fsm.state st).outList, Line.edge src label dst ∈ g.transApEdges fsm (fsm.state st) t) ∨
      (∃ nfa ∈ (fsm.state st).nfaOut, src = .state (fsm.state st).stateNum ∧
        label = nfaLabel (fsm.state st) nfa ∧ dst = .state (fsm.state nfa.toState).stateNum) := by
  simp [transList, eq_comm]

/-- The node section holds no edge. -/
theorem edge_not_mem_nodeLines : Line.edge src label dst ∉ nodeLines fsm := by
  unfold nodeLines
  split <;> simp [List.mem_filterMap]

/-- The four sources of edges of `write`. -/
theorem edge_mem_writeLines :
    Line.edge src label dst ∈ g.writeLines fsm ↔
      (∃ st ∈ fsm.stateList, Line.edge src label dst ∈ g.transList fsm st) ∨
      (∃ s ∈ fsm.startState, src = .entry ∧ label = "IN" ∧ dst = .state (fsm.state s).stateNum) ∨
      (∃ en ∈ fsm.entryPoints, src = .en (fsm.state en.2).stateNum ∧
        label = (makeNameInst "" (g.nameIndex en.1)).1 ∧ dst = .state (fsm.state en.2).stateNum) ∨
      (∃ st ∈ fsm.stateList, (fsm.state st).eofActionTable.length ≠ 0 ∧
        src = .state (fsm.state st).stateNum ∧ label = eofLabel (fsm.state st) ∧
        dst = .eof (fsm.state st).stateNum) := by
  rw [writeLines, List.mem_append, or_iff_right edge_not_mem_nodeLines, edgeLines]
  cases fsm.startState <;> simp [List.mem_filterMap, eq_comm, and_assoc]

end Lines

end MermaidGen

end Colm
