/-
The line structure of the text `MermaidGen::write` produces.  The writer
breaks a line only after each line of the header and of the diagram, and once
more at the end: `key` writes a newline key as the escape `'\\n'`, and its own
text in a label is punctuation, a few capitals and numbers.  So with no newline
in the machine's name or in an action, condition or entry name, the text read
back at its newlines is the header, one text per diagram element, and the
empty tail.  The lemmas about labels hold for every character that the writer
never puts into a label itself (`labelChars`).
-/
import Mathlib.Data.String.Basic
import Colm.Mermaid.Labels

namespace Colm

/-- A text in which the character `c` does not occur. -/
def Avoids (c : Char) (s : String) : Prop := c ∉ s.data

instance (c : Char) : DecidablePred (Avoids c) := fun s => inferInstanceAs (Decidable (c ∉ s.data))

/-- The characters the writer's own text in a label is made of: its
punctuation, the capitals of `EOF`, `EP` and `IN`, and the digits and sign of
numbers. -/
def labelChars : List Char := " !(),-./0123456789EFINOP_|".data

section Avoids

variable {c : Char}

@[simp] theorem avoids_empty : Avoids c "" := List.not_mem_nil c

@[simp] theorem avoids_append (s t : String) : Avoids c (s ++ t) ↔ Avoids c s ∧ Avoids c t := by
  simp [Avoids, not_or]

@[simp] theorem avoids_join (l : List String) : Avoids c (String.join l) ↔ ∀ s ∈ l, Avoids c s := by
  simp [Avoids]

@[simp] theorem avoids_ite {p : Prop} [Decidable p] (s t : String) :
    Avoids c (if p then s else t) ↔ (p → Avoids c s) ∧ (¬p → Avoids c t) := by
  split <;> simp [*]

theorem avoids_of_subset (hc : c ∉ labelChars) {s : String} (hs : s.data ⊆ labelChars) :
    Avoids c s :=
  fun h => hc (hs h)

theorem digitChar_mem_labelChars : ∀ d < 10, Nat.digitChar d ∈ labelChars := by decide

theorem toDigitsCore_subset_labelChars (fuel n : Nat) {ds : List Char} (hds : ds ⊆ labelChars) :
    Nat.toDigitsCore 10 fuel n ds ⊆ labelChars := by
  induction fuel generalizing n ds with
  | zero => exact hds
  | succ fuel ih =>
    have hd : Nat.digitChar (n % 10) :: ds ⊆ labelChars :=
      List.cons_subset.mpr ⟨digitChar_mem_labelChars _ (Nat.mod_lt n (by decide)), hds⟩
    simp only [Nat.toDigitsCore]
    split
    · exact hd
    · exact ih _ hd

/-- Numbers are written with digits and a sign. -/
theorem toString_nat_subset_labelChars (n : Nat) : (toString n).data ⊆ labelChars :=
  toDigitsCore_subset_labelChars (n + 1) n (List.nil_subset _)

theorem toString_int_subset_labelChars (i : Int) : (toString i).data ⊆ labelChars := by
  cases i with
  | ofNat m => exact toString_nat_subset_labelChars m
  | negSucc m => exact List.append_subset.mpr ⟨by decide, toString_nat_subset_labelChars (m + 1)⟩

theorem newline_not_mem_labelChars : '\n' ∉ labelChars := by decide

theorem charOfNat_toNat {c : Nat} (hlt : c < 256) : (Char.ofNat c).toNat = c := by
  simp [Char.ofNat, show c.isValidChar from Or.inl (by omega), Char.ofNatAux, Char.toNat,
    UInt32.toNat]

end Avoids

/-- The text of a line, without the newline that ends it. -/
def Line.text : Line → String
  | .point id => "\t" ++ id.render ++ "(( ))"
  | .state n final =>
    "\t" ++ toString n ++
      (if final then "(((" ++ toString n ++ ")))" else "((" ++ toString n ++ "))")
  | .edge src label dst => "\t" ++ src.render ++ " -->|\"" ++ label ++ "\"| " ++ dst.render

theorem Line.render_eq_text (l : Line) : l.render = l.text ++ "\n" := by
  cases l <;> simp [Line.render, Line.text, String.append_assoc]

theorem avoids_newline_toString (n : Int) : Avoids '\n' (toString n) :=
  avoids_of_subset newline_not_mem_labelChars (toString_int_subset_labelChars n)

theorem NodeId.render_avoids_newline (id : NodeId) : Avoids '\n' id.render := by
  cases id <;> simp only [NodeId.render, avoids_append, avoids_newline_toString, and_true] <;> decide

/-- Text cut into lines, each ended by `x`, is read back by splitting at `x`:
the lines, then the empty text after the last `x`. -/
theorem splitOn_flatMap_append {α : Type} [DecidableEq α] {x : α} :
    ∀ {ls : List (List α)}, (∀ l ∈ ls, x ∉ l) → (ls.flatMap (· ++ [x])).splitOn x = ls ++ [[]]
  | [], _ => rfl
  | l :: ls, h => by
    have hl : ∀ y ∈ l, ¬(y == x) = true := fun y hy hyx => h l (.head _) (eq_of_beq hyx ▸ hy)
    rw [List.flatMap_cons, List.append_assoc, List.singleton_append, List.splitOn,
      List.splitOnP_first (· == x) l hl x (beq_self_eq_true x), ← List.splitOn,
      splitOn_flatMap_append fun l' hl' => h l' (.tail _ hl'), List.cons_append]

namespace MermaidGen

/-- No action, condition or entry name holds the character `c`. -/
structure NamesAvoid (c : Char) (g : MermaidGen) (fsm : FsmAp) : Prop where
  state : ∀ p, ∀ name ∈ (fsm.state p).names, Avoids c name
  entry : ∀ id, ∀ name ∈ g.nameIndex id, Avoids c name

section Writers

variable {c : Char} {sep : String} {l : List String}

theorem actionNames_avoids (hsep : Avoids c sep) (hl : ∀ name ∈ l, Avoids c name) :
    Avoids c (actionNames sep l) := by
  induction l with
  | nil => exact avoids_empty
  | cons name rest ih =>
    simp only [actionNames, avoids_append, avoids_ite, avoids_empty, hl name (.head _), hsep,
      ih fun n hn => hl n (.tail _ hn), imp_true_iff, and_self]

theorem condItems_avoids (hc : c ∉ labelChars) (condVals : Int) (hl : ∀ name ∈ l, Avoids c name)
    (pos : Nat) : Avoids c (condItems condVals pos l) := by
  induction l generalizing pos with
  | nil => exact avoids_empty
  | cons name rest ih =>
    simp (disch := decide) only [condItems, avoids_append, avoids_ite, avoids_empty,
      avoids_of_subset hc, hl name (.head _), ih (fun n hn => hl n (.tail _ hn)), imp_true_iff,
      and_self, and_true]

theorem condSpec_avoids (hc : c ∉ labelChars) {condSpace : Option (List String)} (condVals : Int)
    (h : ∀ name ∈ condSpace.getD [], Avoids c name) : Avoids c (condSpec condSpace condVals) := by
  cases condSpace with
  | none => exact avoids_empty
  | some condSet =>
    have hitems : Avoids c (condItems condVals 0 condSet) := condItems_avoids hc condVals h 0
    simp (disch := decide) only [condSpec, avoids_append, avoids_of_subset hc, hitems, and_self]

theorem makeNameInst_avoids (hc : c ∉ labelChars) {res : String} (hres : Avoids c res)
    (hl : ∀ name ∈ l, Avoids c name) : Avoids c (makeNameInst res l).1 := by
  induction l with
  | nil => exact hres
  | cons name parents ih =>
    have hparents := ih fun n hn => hl n (.tail _ hn)
    simp only [makeNameInst]
    split
    · exact hparents
    · have hpush : Avoids c ((makeNameInst res parents).1.push '_') := by
        have hsep : Avoids c "_" := avoids_of_subset hc (by decide)
        simpa [Avoids, String.push] using And.intro hparents hsep
      simp only [avoids_append, avoids_ite, hl name (.head _), hpush, hparents, imp_true_iff,
        and_self]

end Writers

section Labels

variable {c : Char} {g : MermaidGen} {fsm : FsmAp}

theorem onChar_avoids (hc : c ∉ labelChars) (hkey : ∀ k, Avoids c (g.key k)) (lowKey highKey : Int)
    {condSpace : Option (List String)} (condVals : Int)
    (hcs : ∀ name ∈ condSpace.getD [], Avoids c name) :
    Avoids c (g.onChar lowKey highKey condSpace condVals) := by
  simp (disch := decide) only [onChar, avoids_append, avoids_ite, avoids_empty,
    avoids_of_subset hc, hkey, condSpec_avoids hc condVals hcs, imp_true_iff, and_self]

theorem fromStateAction_avoids (hc : c ∉ labelChars) {state : StateAp}
    (h : ∀ name ∈ state.names, Avoids c name) : Avoids c (fromStateAction state) := by
  have hactions : Avoids c (actionNames ", " state.fromStateActionTable) :=
    actionNames_avoids (avoids_of_subset hc (by decide))
      fun n hn => h n (by simp [StateAp.names, hn])
  simp (disch := decide) only [fromStateAction, avoids_append, avoids_ite, avoids_empty,
    avoids_of_subset hc, hactions, imp_true_iff, and_self]

theorem transAction_avoids (hc : c ∉ labelChars) (hnames : NamesAvoid c g fsm) {trans : TransData}
    (h : ∀ name ∈ trans.actionTable, Avoids c name) : Avoids c (transAction fsm trans) := by
  have htables : ∀ t, ∀ name ∈ (fsm.state t).toStateActionTable, Avoids c name :=
    fun t n hn => hnames.state t n (by simp [StateAp.names, hn])
  simp (disch := decide) only [transAction, avoids_append, avoids_ite, avoids_empty,
    avoids_of_subset hc, imp_true_iff, and_self, true_and]
  refine actionNames_avoids (avoids_of_subset hc (by decide)) fun name hname => ?_
  simp only [List.flatten_append, List.mem_append] at hname
  rcases hname with hname | hname
  · split at hname
    · exact h name (by simpa using hname)
    · simp at hname
  · split at hname
    · split at hname
      · exact htables _ name (by simpa using hname)
      · simp at hname
    · simp at hname

theorem eofConds_avoids (hc : c ∉ labelChars) {condSpace : Option (List String)}
    (h : ∀ name ∈ condSpace.getD [], Avoids c name) (pos : Nat) (outCondKeys : List Int) :
    Avoids c (eofConds condSpace pos outCondKeys) := by
  induction outCondKeys generalizing pos with
  | nil => exact avoids_empty
  | cons condVals rest ih =>
    simp (disch := decide) only [eofConds, avoids_append, avoids_ite, avoids_empty,
      avoids_of_subset hc, condSpec_avoids hc condVals h, ih, imp_true_iff, and_self]

theorem eofLabel_avoids (hc : c ∉ labelChars) {state : StateAp}
    (h : ∀ name ∈ state.names, Avoids c name) : Avoids c (eofLabel state) := by
  have hconds : Avoids c (eofConds state.outCondSpace 0 state.outCondKeys) :=
    eofConds_avoids hc (fun n hn => h n (by simp [StateAp.names, hn])) 0 _
  have hactions : Avoids c (actionNames ", " state.eofActionTable) :=
    actionNames_avoids (avoids_of_subset hc (by decide))
      fun n hn => h n (by simp [StateAp.names, hn])
  simp (disch := decide) only [eofLabel, action, avoids_append, avoids_of_subset hc, hconds,
    hactions, and_self]

theorem nfaLabel_avoids (hc : c ∉ labelChars) {state : StateAp}
    (h : ∀ name ∈ state.names, Avoids c name) {nfa : NfaTrans} (hnfa : nfa ∈ state.nfaOut) :
    Avoids c (nfaLabel state nfa) := by
  have hpop : ∀ name ∈ nfa.names, Avoids c name :=
    fun n hn => h n (StateAp.mem_names_of_mem_nfaOut hnfa hn)
  have hconds : Avoids c (String.join (nfa.popCondKeys.map fun condVals =>
      "(" ++ condItems condVals 0 nfa.popCondSpace ++ ") ")) := by
    simp only [avoids_join, List.forall_mem_map]
    intro condVals _
    have hitems : Avoids c (condItems condVals 0 nfa.popCondSpace) :=
      condItems_avoids hc condVals (fun n hn => hpop n (by simp [NfaTrans.names, hn])) 0
    simp (disch := decide) only [avoids_append, avoids_of_subset hc, hitems, and_self]
  have hpopAction : Avoids c (actionNames "," nfa.popAction) :=
    actionNames_avoids (avoids_of_subset hc (by decide))
      fun n hn => hpop n (by simp [NfaTrans.names, hn])
  have hpopTest : Avoids c (actionNames "," nfa.popTest) :=
    actionNames_avoids (avoids_of_subset hc (by decide))
      fun n hn => hpop n (by simp [NfaTrans.names, hn])
  simp (disch := decide) only [nfaLabel, avoids_append, avoids_of_subset hc,
    avoids_of_subset hc (toString_int_subset_labelChars _), fromStateAction_avoids hc h, hconds,
    hpopAction, hpopTest, and_self]

theorem transApEdges_avoids (hc : c ∉ labelChars) (hkey : ∀ k, Avoids c (g.key k))
    (hnames : NamesAvoid c g fsm) (p : Nat) {t : TransAp} (ht : t ∈ (fsm.state p).outList)
    {src dst : NodeId} {label : String}
    (h : Line.edge src label dst ∈ g.transApEdges fsm (fsm.state p) t) : Avoids c label := by
  have htnames : ∀ name ∈ t.names, Avoids c name :=
    fun n hn => hnames.state p n (StateAp.mem_names_of_mem_outList ht hn)
  have hedge : ∀ {lowKey highKey condSpace condVals trans},
      (∀ name ∈ condSpace.getD [], Avoids c name) → (∀ name ∈ trans.actionTable, Avoids c name) →
      g.transEdge fsm (fsm.state p) lowKey highKey condSpace condVals trans = .edge src label dst →
      Avoids c label := by
    intro lowKey highKey condSpace condVals trans hcs htrans h
    simp only [transEdge, Line.edge.injEq] at h
    rw [← h.2.1, avoids_append, avoids_append]
    exact ⟨⟨fromStateAction_avoids hc (hnames.state p), onChar_avoids hc hkey _ _ condVals hcs⟩,
      transAction_avoids hc hnames htrans⟩
  cases t with
  | tdap lowKey highKey data =>
    simp only [transApEdges, List.mem_singleton] at h
    exact hedge (by simp) htnames h.symm
  | tcap lowKey highKey condSpace condList =>
    simp only [transApEdges, List.mem_map] at h
    obtain ⟨ctel, hctel, h⟩ := h
    exact hedge (fun n (hn : n ∈ (some condSpace).getD []) => htnames n (List.mem_append_left _ hn))
      (fun n hn => htnames n (List.mem_append_right _ (List.mem_flatMap.mpr ⟨ctel, hctel, hn⟩))) h

/-- Every label of `write` is made of the writer's own characters, of names
and of key texts: a character that is none of these occurs in no label. -/
theorem writeLines_label_avoids (hc : c ∉ labelChars) (hkey : ∀ k, Avoids c (g.key k))
    (hnames : NamesAvoid c g fsm) {src dst : NodeId} {label : String}
    (h : Line.edge src label dst ∈ g.writeLines fsm) : Avoids c label := by
  rcases (edge_mem_writeLines g).mp h with
    ⟨st, -, h⟩ | ⟨s, -, -, rfl, -⟩ | ⟨en, -, -, rfl, -⟩ | ⟨st, -, -, -, rfl, -⟩
  · rcases (edge_mem_transList g).mp h with ⟨t, ht, h⟩ | ⟨nfa, hnfa, -, rfl, -⟩
    · exact transApEdges_avoids hc hkey hnames st ht h
    · exact nfaLabel_avoids hc (hnames.state st) hnfa
  · exact avoids_of_subset hc (by decide)
  · exact makeNameInst_avoids hc avoids_empty (hnames.entry en.1)
  · exact eofLabel_avoids hc (hnames.state st)

end Labels

section Newlines

/-- `key` never writes a newline: a printable newline key is written as the
escape `'\\n'`, every other printable key as a character of its own, and a
key that is not printable as a number. -/
theorem key_avoids_newline (g : MermaidGen) (k : Int) : Avoids '\n' (g.key k) := by
  unfold key
  split
  · have hlt : (k % 256).toNat < 256 := by omega
    dsimp only
    generalize (k % 256).toNat = cVal at hlt ⊢
    split
    all_goals simp [Avoids, Char.toString]
    exact fun h => ‹cVal = 10 → False› (by rw [← charOfNat_toNat hlt, ← h]; rfl)
  · split
    · exact avoids_of_subset newline_not_mem_labelChars (toString_int_subset_labelChars _)
    · exact avoids_of_subset newline_not_mem_labelChars (toString_nat_subset_labelChars _)

variable {g : MermaidGen} {fsm : FsmAp}

/-- A line of `write` holds no newline before its end. -/
theorem text_avoids_newline (hnames : NamesAvoid '\n' g fsm) {l : Line} (hl : l ∈ g.writeLines fsm) :
    Avoids '\n' l.text := by
  cases l with
  | point id => simp only [Line.text, avoids_append, NodeId.render_avoids_newline, and_true]; decide
  | state n final =>
    simp only [Line.text, avoids_append, avoids_ite, avoids_newline_toString, and_true, true_and]
    cases final <;> decide
  | edge src label dst =>
    simp only [Line.text, avoids_append, NodeId.render_avoids_newline,
      writeLines_label_avoids newline_not_mem_labelChars (key_avoids_newline g) hnames hl, and_true]
    decide

variable (g fsm)

/-- The text of `write`: the header lines, the lines of the diagram and one
empty line, each ended by a newline. -/
theorem write_data :
    (g.write fsm).data =
      (["---".data, ("title: " ++ g.fsmName).data, "---".data, "flowchart LR".data] ++
        (g.writeLines fsm).map (fun l : Line => l.text.data) ++ [[]]).flatMap (· ++ ['\n']) := by
  simp [write, Line.render_eq_text, List.flatMap_append, List.flatMap_map, List.flatMap_def,
    Function.comp_def]

variable {g fsm}

/-- No line of the text of `write` holds a newline when the machine's name and
the names it writes hold none. -/
theorem write_lines_avoid_newline (hname : Avoids '\n' g.fsmName) (hnames : NamesAvoid '\n' g fsm) :
    ∀ l ∈ ["---".data, ("title: " ++ g.fsmName).data, "---".data, "flowchart LR".data] ++
      (g.writeLines fsm).map (fun l : Line => l.text.data) ++ [[]], '\n' ∉ l := by
  simp only [List.mem_append, List.mem_cons, List.mem_map, List.not_mem_nil, or_false]
  rintro _ (((rfl | rfl | rfl | rfl) | ⟨l, hl, rfl⟩) | rfl)
  · decide
  · exact (avoids_append _ _).mpr ⟨by decide, hname⟩
  · decide
  · decide
  · exact text_avoids_newline hnames hl
  · decide

/-- Read back at its newlines, the text `write` produces is its four header
lines, the text of each line of the diagram in order, and two empty texts:
between the last line's newline and the closing one, and after it.  No key,
number or text of the writer's own breaks a line, so this holds whenever the
machine's name and every action, condition and entry name are free of
newlines. -/
theorem write_splitOn_newline (hname : Avoids '\n' g.fsmName) (hnames : NamesAvoid '\n' g fsm) :
    (g.write fsm).data.splitOn '\n' =
      ["---".data, ("title: " ++ g.fsmName).data, "---".data, "flowchart LR".data] ++
        (g.writeLines fsm).map (fun l : Line => l.text.data) ++ [[], []] := by
  rw [write_data, splitOn_flatMap_append (write_lines_avoid_newline hname hnames), List.append_assoc]
  rfl

/-- The machine of `quoteFsm`, written with printable keys shown as
characters, reads back as its header and its diagram lines. -/
theorem write_splitOn_newline_quote :
    Avoids '\n' quoteGen.fsmName ∧ NamesAvoid '\n' quoteGen quoteFsm ∧
      (quoteGen.write quoteFsm).data.splitOn '\n' =
        ["---".data, ("title: " ++ quoteGen.fsmName).data, "---".data, "flowchart LR".data] ++
          (quoteGen.writeLines quoteFsm).map (fun l : Line => l.text.data) ++ [[], []] :=
  have hnames : NamesAvoid '\n' quoteGen quoteFsm :=
    ⟨fun _ _ h => by simp [quoteFsm, quoteState, StateAp.names, TransAp.names] at h,
      fun _ _ h => by simp [quoteGen] at h⟩
  ⟨by decide, hnames, write_splitOn_newline (by decide) hnames⟩

end Newlines

end MermaidGen

end Colm
