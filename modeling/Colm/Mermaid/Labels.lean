/-
The labels of the diagram, the text between `|"` and `"|` of each edge.  A
label holds a double quote only where `key` writes a printable `"`, as
`'\"'`: with action and entry names free of quotes, no other path of the
writer puts one in a label.
-/
import Mathlib.Data.Nat.Digits
import Colm.Mermaid

namespace Colm

/-- A text with no double quote. -/
def QuoteFree (s : String) : Prop := '"' ∉ s.data

instance : DecidablePred QuoteFree := fun s => inferInstanceAs (Decidable ('"' ∉ s.data))

@[simp] theorem quoteFree_append (s t : String) :
    QuoteFree (s ++ t) ↔ QuoteFree s ∧ QuoteFree t := by
  simp [QuoteFree, not_or]

@[simp] theorem quoteFree_ite {p : Prop} [Decidable p] (s t : String) :
    QuoteFree (if p then s else t) ↔ (p → QuoteFree s) ∧ (¬p → QuoteFree t) := by
  split <;> simp [*]

theorem quoteFree_foldl_append (l : List String) (acc : String) :
    QuoteFree (l.foldl (· ++ ·) acc) ↔ QuoteFree acc ∧ ∀ s ∈ l, QuoteFree s := by
  induction l generalizing acc with
  | nil => simp
  | cons s rest ih => simp [ih, and_assoc]

section Digits

theorem ite_ne_quote {p : Prop} [Decidable p] {a b : Char} (ha : a ≠ '"') (hb : b ≠ '"') :
    (if p then a else b) ≠ '"' := by
  split <;> assumption

theorem digitChar_ne_quote (n : Nat) : Nat.digitChar n ≠ '"' := by
  unfold Nat.digitChar
  repeat refine ite_ne_quote (by decide) ?_
  decide

theorem quote_not_mem_toDigitsCore (base fuel n : Nat) (ds : List Char) (hds : '"' ∉ ds) :
    '"' ∉ Nat.toDigitsCore base fuel n ds := by
  induction fuel generalizing n ds with
  | zero => exact hds
  | succ fuel ih =>
    have hd : '"' ∉ Nat.digitChar (n % base) :: ds :=
      List.not_mem_cons_of_ne_of_not_mem (digitChar_ne_quote _).symm hds
    simp only [Nat.toDigitsCore]
    split
    · exact hd
    · exact ih _ _ hd

/-- Decimal numerals hold no quote. -/
@[simp] theorem quoteFree_toString_nat (n : Nat) : QuoteFree (toString n) :=
  quote_not_mem_toDigitsCore 10 (n + 1) n [] (List.not_mem_nil _)

@[simp] theorem quoteFree_toString_int (i : Int) : QuoteFree (toString i) := by
  cases i with
  | ofNat m => exact quoteFree_toString_nat m
  | negSucc m => exact (quoteFree_append _ _).mpr ⟨by decide, quoteFree_toString_nat _⟩

theorem charOfNat_ne_quote {c : Nat} (hlt : c < 256) (hc : c ≠ 34) : Char.ofNat c ≠ '"' := by
  have hv : c.isValidChar := Or.inl (by omega)
  have htoNat : (Char.ofNat c).toNat = c := by
    simp [Char.ofNat, hv, Char.ofNatAux, Char.toNat, UInt32.toNat]
  exact fun heq => hc (htoNat ▸ congrArg Char.toNat heq)

end Digits

/-- The names a transition's actions and conditions are written with. -/
def TransAp.names : TransAp → List String
  | .tdap _ _ data => data.actionTable
  | .tcap _ _ condSpace condList => condSpace ++ condList.flatMap (·.actionTable)

/-- The names an NFA transition's pops are written with. -/
def NfaTrans.names (nfa : NfaTrans) : List String :=
  nfa.popCondSpace ++ nfa.popAction ++ nfa.popTest

/-- The names of the actions and conditions of a state and its transitions. -/
def StateAp.names (state : StateAp) : List String :=
  state.fromStateActionTable ++ state.toStateActionTable ++ state.eofActionTable ++
    state.outCondSpace.getD [] ++ state.outList.flatMap TransAp.names ++
    state.nfaOut.flatMap NfaTrans.names

/-- The low key of a transition. -/
def TransAp.lowKey : TransAp → Int
  | .tdap lowKey _ _ | .tcap lowKey _ _ _ => lowKey

/-- The high key of a transition. -/
def TransAp.highKey : TransAp → Int
  | .tdap _ highKey _ | .tcap _ highKey _ _ => highKey

theorem StateAp.mem_names_of_mem_outList {state : StateAp} {t : TransAp} (ht : t ∈ state.outList)
    {name : String} (hname : name ∈ t.names) : name ∈ state.names := by
  simp only [StateAp.names, List.mem_append, List.mem_flatMap]
  exact Or.inl (Or.inr ⟨t, ht, hname⟩)

theorem StateAp.mem_names_of_mem_nfaOut {state : StateAp} {nfa : NfaTrans}
    (hnfa : nfa ∈ state.nfaOut) {name : String} (hname : name ∈ nfa.names) : name ∈ state.names := by
  simp only [StateAp.names, List.mem_append, List.mem_flatMap]
  exact Or.inr ⟨nfa, hnfa, hname⟩

namespace MermaidGen

/-- No action name and no entry name holds a double quote. -/
structure NamesQuoteFree (g : MermaidGen) (fsm : FsmAp) : Prop where
  state : ∀ p, ∀ name ∈ (fsm.state p).names, QuoteFree name
  entry : ∀ id, ∀ name ∈ g.nameIndex id, QuoteFree name

section Writers

variable {sep : String} {l : List String}

theorem actionNames_quoteFree (hsep : QuoteFree sep) (hl : ∀ name ∈ l, QuoteFree name) :
    QuoteFree (actionNames sep l) := by
  induction l with
  | nil => simp [actionNames, QuoteFree]
  | cons name rest ih =>
    have hname : QuoteFree name := hl name (List.mem_cons_self _ _)
    have hrest := ih fun n hn => hl n (List.mem_cons_of_mem _ hn)
    simp only [actionNames, quoteFree_append, quoteFree_ite, hname, hrest, hsep, and_true]
    simp [QuoteFree]

theorem condItems_quoteFree (condVals : Int) (hl : ∀ name ∈ l, QuoteFree name) (pos : Nat) :
    QuoteFree (condItems condVals pos l) := by
  induction l generalizing pos with
  | nil => simp [condItems, QuoteFree]
  | cons name rest ih =>
    have hname : QuoteFree name := hl name (List.mem_cons_self _ _)
    have hrest := ih (fun n hn => hl n (List.mem_cons_of_mem _ hn)) (pos + 1)
    simp only [condItems, quoteFree_append, quoteFree_ite, hname, hrest, and_true]
    simp [QuoteFree]

theorem condSpec_quoteFree {condSpace : Option (List String)} (condVals : Int)
    (h : ∀ name ∈ condSpace.getD [], QuoteFree name) : QuoteFree (condSpec condSpace condVals) := by
  cases condSpace with
  | none => simp [condSpec, QuoteFree]
  | some condSet =>
    have hitems : QuoteFree (condItems condVals 0 condSet) := condItems_quoteFree condVals h 0
    simp only [condSpec, quoteFree_append, hitems, and_true, true_and]
    simp [QuoteFree]

theorem makeNameInst_quoteFree {res : String} (hres : QuoteFree res)
    (hl : ∀ name ∈ l, QuoteFree name) : QuoteFree (makeNameInst res l).1 := by
  induction l with
  | nil => exact hres
  | cons name parents ih =>
    have hparents := ih fun n hn => hl n (List.mem_cons_of_mem _ hn)
    simp only [makeNameInst]
    split
    · exact hparents
    · have hname : QuoteFree name := hl name (List.mem_cons_self _ _)
      have hpush : QuoteFree ((makeNameInst res parents).1.push '_') := by
        simpa [QuoteFree] using hparents
      simp only [quoteFree_append, quoteFree_ite, hname, hpush, hparents, and_true]
      simp

end Writers

variable (g : MermaidGen)

/-- `key` writes the double quote itself: a printable key whose low byte is
`"`. -/
def PrintsQuote (k : Int) : Prop :=
  g.displayPrintables = true ∧ g.isPrintable k = true ∧ k % 256 = 34

/-- `key` writes a double quote exactly for a printable key whose low byte is
`"`: it writes it as `'\"'`. -/
theorem key_quoteFree_iff (k : Int) : QuoteFree (g.key k) ↔ ¬g.PrintsQuote k := by
  unfold key PrintsQuote
  by_cases hp : (g.displayPrintables && g.isPrintable k) = true
  · rw [if_pos hp]
    simp only [Bool.and_eq_true] at hp
    simp only [hp, true_and]
    have hk : k % 256 = ((k % 256).toNat : Int) := by omega
    have hlt : (k % 256).toNat < 256 := by omega
    generalize (k % 256).toNat = c at hk hlt ⊢
    split
    all_goals simp [QuoteFree, Char.toString] at hk ⊢
    all_goals first
      | omega
      | exact iff_of_true (Ne.symm (charOfNat_ne_quote hlt ‹_›)) fun h => ‹c = 34 → False› (by omega)
  · rw [if_neg hp]
    refine iff_of_true (by split <;> simp) fun h => hp ?_
    simp [h.1, h.2.1]

section Labels

variable {g} {fsm : FsmAp}

theorem onChar_quoteFree {lowKey highKey : Int} {condSpace : Option (List String)}
    (hlow : ¬g.PrintsQuote lowKey) (hhigh : ¬g.PrintsQuote highKey) (condVals : Int)
    (hcs : ∀ name ∈ condSpace.getD [], QuoteFree name) :
    QuoteFree (g.onChar lowKey highKey condSpace condVals) := by
  simp only [onChar, quoteFree_append, quoteFree_ite]
  exact ⟨⟨(g.key_quoteFree_iff _).mpr hlow,
      fun _ => ⟨by decide, (g.key_quoteFree_iff _).mpr hhigh⟩, fun _ => by decide⟩,
    condSpec_quoteFree condVals hcs⟩

theorem fromStateAction_quoteFree {state : StateAp} (h : ∀ name ∈ state.names, QuoteFree name) :
    QuoteFree (fromStateAction state) := by
  simp only [fromStateAction, quoteFree_append, quoteFree_ite]
  exact ⟨actionNames_quoteFree (by decide) fun n hn => h n (by simp [StateAp.names, hn]),
    fun _ => by decide, fun _ => by decide⟩

theorem transAction_quoteFree (hnames : NamesQuoteFree g fsm) {trans : TransData}
    (h : ∀ name ∈ trans.actionTable, QuoteFree name) : QuoteFree (transAction fsm trans) := by
  have htables : ∀ t, ∀ name ∈ (fsm.state t).toStateActionTable, QuoteFree name :=
    fun t n hn => hnames.state t n (by simp [StateAp.names, hn])
  simp only [transAction, quoteFree_append, quoteFree_ite]
  refine ⟨⟨fun _ => by decide, fun _ => by decide⟩, actionNames_quoteFree (by decide) ?_⟩
  intro name hname
  simp only [List.flatten_append, List.mem_append] at hname
  rcases hname with hname | hname
  · split at hname
    · exact h name (by simpa using hname)
    · simp at hname
  · split at hname
    · split at hname
      · exact htables _ name (by simpa using hname)
      · simp at hname
    · simp at hname

theorem eofConds_quoteFree {condSpace : Option (List String)}
    (h : ∀ name ∈ condSpace.getD [], QuoteFree name) (pos : Nat) (outCondKeys : List Int) :
    QuoteFree (eofConds condSpace pos outCondKeys) := by
  induction outCondKeys generalizing pos with
  | nil => simp [eofConds, QuoteFree]
  | cons condVals rest ih =>
    simp only [eofConds, quoteFree_append, quoteFree_ite, condSpec_quoteFree condVals h, ih,
      and_true]
    simp [QuoteFree]

theorem eofLabel_quoteFree {state : StateAp} (h : ∀ name ∈ state.names, QuoteFree name) :
    QuoteFree (eofLabel state) := by
  have hconds : QuoteFree (eofConds state.outCondSpace 0 state.outCondKeys) :=
    eofConds_quoteFree (fun n hn => h n (by simp [StateAp.names, hn])) 0 _
  have hactions : QuoteFree (actionNames ", " state.eofActionTable) :=
    actionNames_quoteFree (by decide) fun n hn => h n (by simp [StateAp.names, hn])
  simp only [eofLabel, action, quoteFree_append, hconds, hactions, and_true]
  simp [QuoteFree]

theorem nfaLabel_quoteFree {state : StateAp} (h : ∀ name ∈ state.names, QuoteFree name)
    {nfa : NfaTrans} (hnfa : nfa ∈ state.nfaOut) : QuoteFree (nfaLabel state nfa) := by
  have hpop : ∀ name ∈ nfa.names, QuoteFree name :=
    fun n hn => h n (StateAp.mem_names_of_mem_nfaOut hnfa hn)
  have hconds : QuoteFree (String.join (nfa.popCondKeys.map fun condVals =>
      "(" ++ condItems condVals 0 nfa.popCondSpace ++ ") ")) := by
    refine (quoteFree_foldl_append _ _).mpr ⟨by decide, ?_⟩
    simp only [List.mem_map]
    rintro _ ⟨condVals, -, rfl⟩
    have hitems : QuoteFree (condItems condVals 0 nfa.popCondSpace) :=
      condItems_quoteFree condVals (fun n hn => hpop n (by simp [NfaTrans.names, hn])) 0
    simp only [quoteFree_append, hitems, and_true, true_and]
    simp [QuoteFree]
  have hpopAction : QuoteFree (actionNames "," nfa.popAction) :=
    actionNames_quoteFree (by decide) fun n hn => hpop n (by simp [NfaTrans.names, hn])
  have hpopTest : QuoteFree (actionNames "," nfa.popTest) :=
    actionNames_quoteFree (by decide) fun n hn => hpop n (by simp [NfaTrans.names, hn])
  simp only [nfaLabel, quoteFree_append, quoteFree_toString_int, fromStateAction_quoteFree h,
    hconds, hpopAction, hpopTest, and_true]
  simp [QuoteFree]

theorem transEdge_quoteFree (hnames : NamesQuoteFree g fsm) (p : Nat) {lowKey highKey : Int}
    (hlow : ¬g.PrintsQuote lowKey) (hhigh : ¬g.PrintsQuote highKey)
    {condSpace : Option (List String)} (hcs : ∀ name ∈ condSpace.getD [], QuoteFree name)
    (condVals : Int) {trans : TransData} (htrans : ∀ name ∈ trans.actionTable, QuoteFree name)
    {src dst : NodeId} {label : String}
    (h : g.transEdge fsm (fsm.state p) lowKey highKey condSpace condVals trans =
      .edge src label dst) :
    QuoteFree label := by
  simp only [transEdge, Line.edge.injEq] at h
  rw [← h.2.1, quoteFree_append, quoteFree_append]
  exact ⟨⟨fromStateAction_quoteFree (hnames.state p), onChar_quoteFree hlow hhigh condVals hcs⟩,
    transAction_quoteFree hnames htrans⟩

theorem transApEdges_quoteFree (hnames : NamesQuoteFree g fsm) (p : Nat) {t : TransAp}
    (ht : t ∈ (fsm.state p).outList) (hkeys : ¬g.PrintsQuote t.lowKey ∧ ¬g.PrintsQuote t.highKey)
    {src dst : NodeId} {label : String}
    (h : Line.edge src label dst ∈ g.transApEdges fsm (fsm.state p) t) : QuoteFree label := by
  have htnames : ∀ name ∈ t.names, QuoteFree name :=
    fun n hn => hnames.state p n (StateAp.mem_names_of_mem_outList ht hn)
  cases t with
  | tdap lowKey highKey data =>
    simp only [transApEdges, List.mem_singleton] at h
    exact transEdge_quoteFree hnames p hkeys.1 hkeys.2 (by simp) 0 htnames h.symm
  | tcap lowKey highKey condSpace condList =>
    simp only [transApEdges, List.mem_map] at h
    obtain ⟨ctel, hctel, h⟩ := h
    have hctelNames : ∀ name ∈ ctel.actionTable, QuoteFree name := fun n hn =>
      htnames n (List.mem_append_right _ (List.mem_flatMap.mpr ⟨ctel, hctel, hn⟩))
    exact transEdge_quoteFree hnames p hkeys.1 hkeys.2
      (fun n (hn : n ∈ (some condSpace).getD []) => htnames n (List.mem_append_left _ hn)) ctel.key
      hctelNames h

/-- A state whose one transition, on the key `"`, goes back to it. -/
def quoteState : StateAp :=
  { stateNum := 0, isFinState := false, outList := [.tdap 34 34 ⟨[], some 0⟩], nfaOut := [],
    fromStateActionTable := [], toStateActionTable := [], eofActionTable := [],
    outCondSpace := none, outCondKeys := [] }

/-- The machine of `quoteState` alone, its start state. -/
def quoteFsm : FsmAp :=
  { state := fun _ => quoteState, stateList := [0], entryPoints := [], startState := some 0,
    startState_mem := by decide, entryPoints_mem := by decide }

/-- A writer that shows printable keys as characters, the printable ones
being those of the ASCII range from the space to the tilde. -/
def quoteGen : MermaidGen :=
  { fsmName := "q", displayPrintables := true, keyOps := ⟨false, 0, 255⟩,
    isPrintable := fun k => decide (32 ≤ k ∧ k < 127), nameIndex := fun _ => [] }

/-- The writer of `quoteGen`, with keys shown as numbers. -/
def numberGen : MermaidGen :=
  { quoteGen with displayPrintables := false }

/-- A label of `write` holds a double quote only where a key of a transition
is written as a printable `"`: with no such key, and no quote in an action or
entry name, every label is free of quotes. -/
theorem writeLines_label_quoteFree (hnames : NamesQuoteFree g fsm)
    (hkeys : ∀ st ∈ fsm.stateList, ∀ t ∈ (fsm.state st).outList,
      ¬g.PrintsQuote t.lowKey ∧ ¬g.PrintsQuote t.highKey)
    {src dst : NodeId} {label : String} (h : Line.edge src label dst ∈ g.writeLines fsm) :
    QuoteFree label := by
  rcases (edge_mem_writeLines g).mp h with
    ⟨st, hst, h⟩ | ⟨s, -, -, rfl, -⟩ | ⟨en, -, -, rfl, -⟩ | ⟨st, -, -, -, rfl, -⟩
  · rcases (edge_mem_transList g).mp h with ⟨t, ht, h⟩ | ⟨nfa, hnfa, -, rfl, -⟩
    · exact transApEdges_quoteFree hnames st ht (hkeys st hst t ht) h
    · exact nfaLabel_quoteFree (hnames.state st) hnfa
  · decide
  · exact makeNameInst_quoteFree (by decide) (hnames.entry en.1)
  · exact eofLabel_quoteFree (hnames.state st)

/-- With keys shown as numbers, the transition on `"` of `quoteFsm` is
labelled `34`. -/
theorem writeLines_label_quoteFree_numbers :
    NamesQuoteFree numberGen quoteFsm ∧
      (∀ st ∈ quoteFsm.stateList, ∀ t ∈ (quoteFsm.state st).outList,
        ¬numberGen.PrintsQuote t.lowKey ∧ ¬numberGen.PrintsQuote t.highKey) ∧
      Line.edge (.state 0) "34" (.state 0) ∈ numberGen.writeLines quoteFsm ∧ QuoteFree "34" :=
  have hnames : NamesQuoteFree numberGen quoteFsm :=
    ⟨fun _ _ h => by simp [quoteFsm, quoteState, StateAp.names, TransAp.names] at h,
      fun _ _ h => by simp [numberGen, quoteGen] at h⟩
  have hkeys : ∀ st ∈ quoteFsm.stateList, ∀ t ∈ (quoteFsm.state st).outList,
      ¬numberGen.PrintsQuote t.lowKey ∧ ¬numberGen.PrintsQuote t.highKey :=
    fun _ _ _ _ => ⟨fun h => absurd h.1 (by decide), fun h => absurd h.1 (by decide)⟩
  have hedge : Line.edge (.state 0) "34" (.state 0) ∈ numberGen.writeLines quoteFsm := by decide
  ⟨hnames, hkeys, hedge, writeLines_label_quoteFree hnames hkeys hedge⟩

end Labels

/-- With no action or entry name at all, `write` labels the transition on
`"` with `'"'`, which holds a double quote. -/
theorem writeLines_quote_label :
    NamesQuoteFree quoteGen quoteFsm ∧
      Line.edge (.state 0) "'\\\"'" (.state 0) ∈ quoteGen.writeLines quoteFsm ∧
      ¬QuoteFree "'\\\"'" :=
  ⟨⟨fun _ _ h => by simp [quoteFsm, quoteState, StateAp.names, TransAp.names] at h,
      fun _ _ h => by simp [quoteGen] at h⟩, by decide, by decide⟩

end MermaidGen

end Colm
