import Isel.Proofs.Agreement
import Isel.Proofs.Evaluation

/-!
# Selection preserves meaning

The machine does with the selected code what evaluation does with the tree.  While a
statement runs, every variable of the open scopes that has a slot has a value, and the slot
holds it (`Holds`); the stack holds what was printed, on top of what was there before.

`Sim` says that the machine follows a result of evaluation: it arrives behind the
statement, it halts with the returned value on the stack, or it runs on for as long as the
evaluation was given rounds.  `select_preserves` says this of whole programs.
-/

namespace Isel.Select

open Isel.Flow Isel.Syntax Isel.Scope Isel.Proofs Isel.Eval

variable {V : Type}

/-- Operators stand for the operations that they are lowered to. -/
def reading (M : Meaning V) (su : Setup) : Reading V := ⟨M, opcodeFor? su, su.bindings⟩

/-! ## Slots and variables -/

/-- If the variable has a slot, it has a value, and the slot holds it. -/
def Holds (fin : State) (vars : Vars V) (slots : Slot → Option V) (x : Symbol) : Prop :=
  ∀ k, fin.slots.slot? (some x.decl.label) = some k →
    ∃ v, vars x.decl.label = some v ∧ slots k = some v

/-- Only slots of these labels have changed. -/
def SameBut (fin : State) (L : List Label) (slots slots' : Slot → Option V) : Prop :=
  ∀ k, (∀ l ∈ L, fin.slots.slot? (some l) ≠ some k) → slots' k = slots k

section Slots

variable {fin : State} {L L' : List Label} {slots slots₁ slots₂ : Slot → Option V}

theorem SameBut.trans (h₁ : SameBut fin L slots slots₁) (h₂ : SameBut fin L slots₁ slots₂) :
    SameBut fin L slots slots₂ := fun k hk => (h₂ k hk).trans (h₁ k hk)

theorem SameBut.mono (h : SameBut fin L slots slots₁) (hL : L ⊆ L') :
    SameBut fin L' slots slots₁ := fun k hk => h k fun l hl => hk l (hL hl)

theorem SameBut.slot (h : SameBut fin L slots slots₁) {l : Label} {k : Slot}
    (hk : fin.slots.slot? (some l) = some k) (hl : l ∉ L) : slots₁ k = slots k :=
  h k fun _ hl' hk' => hl (slot?_inj hk hk' ▸ hl')

theorem sameBut_write {s : Store V} {l : Label} {k : Slot} {v : V}
    (hk : fin.slots.slot? (some l) = some k) (hl : l ∈ L) :
    SameBut fin L s.slots (s.write k v).slots := by
  intro k' hk'
  refine Store.write_slots_ne ?_
  rintro rfl
  exact hk' l hl hk

/-- The variables of the open scopes are others than those of the labels. -/
def Apart (env : Env) (L : List Label) : Prop := env.Each fun x => x.decl.label ∉ L

theorem Apart.mono {env : Env} (h : Apart env L) (hL : L' ⊆ L) : Apart env L' :=
  Env.Each.mono h fun _ hx hl => hx (hL hl)

/-- What other labels do leaves the variables of the open scopes as they are. -/
theorem Apart.holds {env : Env} {vars vars' : Vars V} (hap : Apart env L)
    (h : env.Each (Holds fin vars slots)) (hvars : ∀ l, l ∉ L → vars' l = vars l)
    (hslots : SameBut fin L slots slots₁) : env.Each (Holds fin vars' slots₁) := by
  intro f hf x hx hr k hk
  have hnot := hap f hf x hx hr
  obtain ⟨v, hv, hs⟩ := h f hf x hx hr k hk
  exact ⟨v, (hvars _ hnot).trans hv, (hslots.slot hk hnot).trans hs⟩

/-- A variable that gets its value in its slot joins those that are held. -/
theorem Apart.holds_assigned {env : Env} {vars : Vars V} {s : Store V} {tag : Tag} {k : Slot}
    (hap : Apart env L) (h : env.Each (Holds fin vars s.slots)) (hl : tag.label ∈ L)
    (hk : fin.slots.slot? (some tag.label) = some k) (name : String) (v : V) :
    (env.extend [varSymbol tag name]).Each
      (Holds fin (vars.set tag.label (some v)) (s.write k v).slots) := by
  refine Env.Each.extend (hap.holds h (Vars.set_notMem hl) (sameBut_write hk hl)) ?_
  intro x hx k' hk'
  rw [List.mem_singleton] at hx
  subst hx
  cases hk.symm.trans hk'
  exact ⟨v, Vars.set_self .., Store.write_slots_self ..⟩

theorem holds_of_unheld {env : Env} {vars : Vars V} {tag : Tag}
    (h : env.Each (Holds fin vars slots)) (hnone : fin.slots.slot? (some tag.label) = none)
    (name : String) : (env.extend [varSymbol tag name]).Each (Holds fin vars slots) := by
  refine h.extend fun x hx k hk => ?_
  rw [List.mem_singleton] at hx
  subst hx
  cases hk.symm.trans hnone

end Slots

/-! ## Expressions -/

/-- No function is called anywhere in the tree. -/
def CallFree (n : Node) : Prop := ∀ tag callee args, .call tag callee args ∉ n.nodes

theorem CallFree.part {n p : Node} (h : CallFree n) (hp : p ∈ n.parts) : CallFree p :=
  fun tag callee args hm => h tag callee args (Node.mem_nodes_of_part hp hm)

section Expr

variable {M : Meaning V} {su : Setup} {fin : State}

/-- An expression that stands as a statement is evaluated for nothing. -/
theorem exec_of_exprCode {n : Node} {slot : Slot} {code : List Instr}
    (h : ExprCode su fin n slot code) (R : Reading V) (fuel : Nat) (σ : Mem V) :
    exec R fuel n σ = (eval R σ.vars n).elim .stuck fun _ => .next σ := by
  cases n with
  | number | boolean | string | ident | binary | call => simp only [exec]
  | _ => simp [ExprCode] at h

/-- What the code of an expression does: it leaves the value in the slot. -/
def ExprRuns (M : Meaning V) (su : Setup) (fin : State) (n : Node) : Prop :=
  ∀ (env : Env) (vars : Vars V) (s : Store V) (slot : Slot) (code : List Instr),
    ExprCode su fin n slot code → (∀ s ∈ sites env n, Seen su s) →
    env.Each (Holds fin vars s.slots) → Apart env n.labels → n.labels.Nodup → CallFree n →
      (∀ i ∈ code, i.isPlain = true) ∧ ∃ v s', eval (reading M su) vars n = some v ∧
        runCode M fin.module code s = some s' ∧ s'.stack = s.stack ∧ s'.slots slot = some v ∧
        SameBut fin n.labels s.slots s'.slots

theorem runs_single {i : Instr} {s : Store V} {slot : Slot} {v : V} {l : Label} {L : List Label}
    (heff : effect M fin.module i s = some (s.write slot v))
    (hslot : fin.slots.slot? (some l) = some slot) (hl : l ∈ L) :
    runCode M fin.module [i] s = some (s.write slot v) ∧ (s.write slot v).stack = s.stack ∧
      (s.write slot v).slots slot = some v ∧ SameBut fin L s.slots (s.write slot v).slots := by
  refine ⟨?_, rfl, Store.write_slots_self s slot v, sameBut_write hslot hl⟩
  rw [runCode, heff]
  rfl

theorem effect_binary {op : Token} {opcode : Machine.Opcode} (h : opcodeFor? su op = some opcode)
    (m : Module) {s : Store V} {d a b : Slot} {v w : V} (ha : s.slots a = some v)
    (hb : s.slots b = some w) :
    effect M m ⟨opcode, [.slot d, .slot a, .slot b]⟩ s = some (s.write d (M.binary opcode v w)) ∧
      (⟨opcode, [.slot d, .slot a, .slot b]⟩ : Instr).isPlain = true := by
  have hgen : ((s.slots a).bind fun v => (s.slots b).map fun w =>
      s.write d (M.binary opcode v w)) = some (s.write d (M.binary opcode v w)) := by
    rw [ha, hb]
    rfl
  have hmem := mem_binaryOpcodes h
  simp only [binaryOpcodes, List.mem_cons, List.not_mem_nil, or_false] at hmem
  rcases hmem with rfl | rfl | rfl | rfl | rfl | rfl | rfl | rfl | rfl | rfl | rfl | rfl <;>
    exact ⟨hgen, rfl⟩

/-- Both operands run to their values, and the right one leaves the left one's slot alone. -/
theorem binary_runs {tag : Tag} {op : Token} {left right : Node} (ihl : ExprRuns M su fin left)
    (ihr : ExprRuns M su fin right) : ExprRuns M su fin (.binary tag op left right) := by
  intro env vars s slot code h hseen hholds hap hu hcall
  have hl : left ∈ (Node.binary tag op left right).parts := by simp [Node.parts]
  have hr : right ∈ (Node.binary tag op left right).parts := by simp [Node.parts]
  have hpart := fun p hp => seen_part (p := p) h hseen hp
  rw [ExprCode] at h
  obtain ⟨hslot, lhs, rhs, c, d, opcode, hleft, hright, hop, rfl⟩ := h
  obtain ⟨hplain₁, v, s₁, hv, hrun₁, hstack₁, hlhs, hsame₁⟩ :=
    ihl env vars s lhs c hleft (hpart left hl) hholds
      (hap.mono (Node.labels_part_subset hl)) (Node.nodup_part hu hl) (hcall.part hl)
  have hholds₁ :=
    Apart.holds (hap.mono (Node.labels_part_subset hl)) hholds (fun _ _ => rfl) hsame₁
  obtain ⟨hplain₂, w, s₂, hw, hrun₂, hstack₂, hrhs, hsame₂⟩ :=
    ihr env vars s₁ rhs d hright (hpart right hr) hholds₁
      (hap.mono (Node.labels_part_subset hr)) (Node.nodup_part hu hr) (hcall.part hr)
  -- The slot of the left operand is none of the right one's.
  have hlhs' : s₂.slots lhs = some v := by
    obtain ⟨ltag, hltag, hlslot⟩ := slot?_of_exprCode hleft
    refine (hsame₂.slot hlslot fun hmem => ?_).trans hlhs
    have hnodup := Node.nodup_parts hu
    simp only [Node.parts, List.flatMap_cons, List.flatMap_nil, List.append_nil,
      List.nodup_append'] at hnodup
    exact hnodup.2.2 (Node.label_mem_labels hltag) hmem
  obtain ⟨heff, hplain₃⟩ := effect_binary (d := slot) hop fin.module hlhs' hrhs
  obtain ⟨hrun₃, hstack₃, hval, hsame₃⟩ := runs_single heff hslot
    (Node.label_mem_labels (n := .binary tag op left right) rfl)
  refine ⟨?_, M.binary opcode v w, _, ?_, ?_, hstack₃.trans (hstack₂.trans hstack₁), hval, ?_⟩
  · exact List.forall_mem_append.mpr ⟨List.forall_mem_append.mpr ⟨hplain₁, hplain₂⟩,
      List.forall_mem_singleton.mpr hplain₃⟩
  · rw [eval, hv, hw]
    show (opcodeFor? su op).map _ = _
    rw [hop]
    rfl
  · rw [runCode_append, runCode_append, hrun₁, Option.bind_some, hrun₂, Option.bind_some]
    exact hrun₃
  · exact (hsame₁.mono (Node.labels_part_subset hl)).trans
      ((hsame₂.mono (Node.labels_part_subset hr)).trans hsame₃)

/-- **An expression runs to its value.** -/
theorem expr_runs : ∀ n : Node, ExprRuns M su fin n := by
  intro n
  induction n using Node.parts_induction with
  | _ n ih _ =>
  intro env vars s slot code h hseen hholds hap hu hcall
  cases n with
  | number tag value | boolean tag value =>
    rw [ExprCode] at h
    obtain ⟨hslot, rfl⟩ := h
    exact ⟨by simp [Instr.isPlain], _, _, rfl,
      runs_single rfl hslot (Node.label_mem_labels rfl)⟩
  | string tag bytes =>
    rw [ExprCode] at h
    obtain ⟨hslot, k, l, hl, rfl, rfl⟩ := h
    refine ⟨by simp [Instr.isPlain], _, _, rfl,
      runs_single ?_ hslot (Node.label_mem_labels rfl)⟩
    show (fin.module.literals[k]?).map _ = _
    rw [hl]
    rfl
  | ident tag name =>
    rw [ExprCode] at h
    obtain ⟨hslot, decl, source, hbound, hsource, rfl⟩ := h
    -- The variable shows in an open scope, so its slot holds its value.
    obtain ⟨x, hfind, hrole, hbound'⟩ := hseen ⟨.ident tag name, env⟩ (by simp [sites])
    cases hbound.symm.trans hbound'
    obtain ⟨v, hv, hs⟩ := hholds.find? hfind hrole source hsource
    refine ⟨by simp [Instr.isPlain], v, s.write slot v, ?_,
      runs_single ?_ hslot (Node.label_mem_labels rfl)⟩
    · show (su.bindings.find? tag.label).bind _ = _
      rw [hbound]
      exact hv
    · show (s.slots source).map _ = _
      rw [hs]
      rfl
  | binary tag op left right =>
    exact binary_runs (ih left (by simp [Node.parts])) (ih right (by simp [Node.parts]))
      env vars s slot code h hseen hholds hap hu hcall
  | call tag callee args => exact absurd (Node.mem_nodes_self rfl) (hcall tag callee args)
  | _ => simp [ExprCode] at h

end Expr

/-! ## Statements -/

/-- What a tree has to be like for the machine to follow it. -/
structure Fit (fin : State) (n : Node) : Prop where
  labels : n.labels.Nodup
  call : CallFree n
  unheld : Unheld fin n
  scan : ScanFree n

theorem Fit.part {fin : State} {n p : Node} (h : Fit fin n) (hp : p ∈ n.parts) : Fit fin p :=
  ⟨Node.nodup_part h.labels hp, h.call.part hp, h.unheld.part hp, h.scan.part hp⟩

/-- The machine follows a result of evaluation: from `c` it arrives at the end `rest` of
the block `r` with the variables of `env` in their slots, or halts with the returned value
on the stack, or makes so many steps. -/
def Sim (M : Meaning V) (fin : State) (need : Nat) (base : List V) (env : Env) (r : BlockRef)
    (rest : List Instr) (c : Config V) : Result V → Prop
  | .next σ => ∃ k slots,
      run M fin.module k c = .running ⟨r, rest, ⟨slots, σ.out.reverse ++ base⟩⟩ ∧
        env.Each (Holds fin σ.vars slots)
  | .returned value σ => ∃ k s, run M fin.module k c = .halted s ∧
      s.stack = value.toList ++ (σ.out.reverse ++ base)
  | .timeout => ∃ k c', need ≤ k ∧ run M fin.module k c = .running c'
  | .stuck => False

section Sim

variable {M : Meaning V} {fin : State} {need : Nat} {base : List V} {env env' : Env}
  {r r' : BlockRef} {rest rest' : List Instr} {c c' : Config V} {res : Result V}

theorem Sim.behind {k : Nat} (hrun : run M fin.module k c = .running c')
    (h : Sim M fin need base env r rest c' res) :
    Sim M fin (k + need) base env r rest c res := by
  cases res with
  | next σ =>
    obtain ⟨l, slots, hl, hholds⟩ := h
    exact ⟨k + l, slots, (run_trans hrun).trans hl, hholds⟩
  | returned value σ =>
    obtain ⟨l, s, hl, hs⟩ := h
    exact ⟨k + l, s, (run_trans hrun).trans hl, hs⟩
  | timeout =>
    obtain ⟨l, d, hle, hl⟩ := h
    exact ⟨k + l, d, by omega, (run_trans hrun).trans hl⟩
  | stuck => exact h

theorem Sim.le (h : Sim M fin need base env r rest c res) {need' : Nat} (hle : need' ≤ need) :
    Sim M fin need' base env r rest c res := by
  cases res with
  | timeout =>
    obtain ⟨l, d, hl, hrun⟩ := h
    exact ⟨l, d, Nat.le_trans hle hl, hrun⟩
  | next | returned | stuck => exact h

theorem Sim.steps {k : Nat} (hrun : run M fin.module k c = .running c')
    (h : Sim M fin need base env r rest c' res) : Sim M fin need base env r rest c res :=
  (Sim.behind hrun h).le (by omega)

theorem Sim.andThen (h : Sim M fin need base env r rest c res) {f : Mem V → Result V}
    (hf : ∀ σ slots, env.Each (Holds fin σ.vars slots) →
      Sim M fin need base env' r' rest' ⟨r, rest, ⟨slots, σ.out.reverse ++ base⟩⟩ (f σ)) :
    Sim M fin need base env' r' rest' c (res.andThen f) := by
  cases res with
  | next σ =>
    obtain ⟨k, slots, hrun, hholds⟩ := h
    exact (hf σ slots hholds).steps hrun
  | returned | timeout | stuck => exact h

theorem Sim.weaken (h : Sim M fin need base env r rest c res)
    (henv : ∀ vars slots, env.Each (Holds (V := V) fin vars slots) →
      env'.Each (Holds fin vars slots)) :
    Sim M fin need base env' r rest c res := by
  cases res with
  | next σ =>
    obtain ⟨k, slots, hrun, hholds⟩ := h
    exact ⟨k, slots, hrun, henv _ _ hholds⟩
  | returned | timeout | stuck => exact h

theorem Sim.jump {g i k : Nat} (h : Sim M fin need base env ⟨g, i⟩ [jumpTo ⟨g, k⟩] c res)
    (hk : k < fin.module.count g) :
    Sim M fin need base env ⟨g, k⟩ (fin.module.code ⟨g, k⟩) c res := by
  cases res with
  | next σ =>
    obtain ⟨l, slots, hrun, hholds⟩ := h
    exact ⟨l + 1, slots, (run_trans hrun).trans (run_jump hk), hholds⟩
  | returned | timeout | stuck => exact h

end Sim

/-- Values cross a call on the stack, and printing pushes the printed slot. -/
structure StackPrint (su : Setup) : Prop where
  convention : su.hooks.convention = .stack
  print : ∀ served slot out, su.hooks.io served (.print slot) = .ok out →
    out = [⟨.push, [.slot slot]⟩]

section Stmt

variable {M : Meaning V} {su : Setup} {fin : State} {g : Nat}

abbrev blocksOf (fin : State) (g : Nat) : Blocks := fun k => fin.module.code ⟨g, k⟩

/-- The machine follows the statement. -/
def StmtRuns (M : Meaning V) (su : Setup) (fin : State) (g : Nat) (n : Node) : Prop :=
  ∀ (env : Env) (fuel : Nat) (base : List V) (σ : Mem V) (slots : Slot → Option V) (i j : Nat)
    (rest rest' : List Instr), StmtAt su fin g (blocksOf fin g) n i rest j rest' →
    j < fin.module.count g → env.isNested = true → (∀ s ∈ sites env n, Seen su s) →
    env.Each (Holds fin σ.vars slots) → Apart env n.labels → Fit fin n →
      Sim M fin fuel base (env.extend (declared n)) ⟨g, j⟩ rest'
        ⟨⟨g, i⟩, rest, ⟨slots, σ.out.reverse ++ base⟩⟩ (exec (reading M su) fuel n σ)

theorem stmtsAt_le {B : Blocks} : ∀ (ns : List Node),
    (∀ n ∈ ns, ∀ i rest j rest', StmtAt su fin g B n i rest j rest' → i ≤ j) →
    ∀ i rest j rest', StmtsAt su fin g B ns i rest j rest' → i ≤ j := by
  intro ns
  induction ns with
  | nil =>
    intro _ i rest j rest' h
    rw [StmtsAt] at h
    omega
  | cons n ns ih =>
    intro hle i rest j rest' h
    rw [StmtsAt] at h
    obtain ⟨k, mid, hn, hns⟩ := h
    have h₁ := hle n (by simp) i rest k mid hn
    have h₂ := ih (fun m hm => hle m (by simp [hm])) k mid j rest' hns
    omega

theorem stmtAt_le {B : Blocks} : ∀ (n : Node) (i : Nat) (rest : List Instr) (j : Nat)
    (rest' : List Instr), StmtAt su fin g B n i rest j rest' → i ≤ j := by
  intro n
  induction n using Node.parts_induction with
  | _ n ih ih₂ =>
  intro i rest j rest' h
  cases n with
  | var tag name type init =>
    by_cases hinit : init = .absent
    · subst hinit
      rw [StmtAt] at h
      exact Nat.le_of_eq h.1.symm
    · obtain ⟨_, _, _, -, -, rfl, -⟩ := (stmtAt_var hinit).mp h
      exact Nat.le_refl j
  | ret tag expr =>
    by_cases hexpr : expr = .absent
    · subst hexpr
      rw [StmtAt] at h
      exact Nat.le_of_eq h.1.symm
    · obtain ⟨_, _, _, -, -, rfl, -⟩ := (stmtAt_ret hexpr).mp h
      exact Nat.le_refl j
  | print tag expr =>
    rw [StmtAt] at h
    obtain ⟨_, _, _, -, -, rfl, -⟩ := h
    exact Nat.le_refl j
  | compound tag stmts =>
    rw [StmtAt] at h
    have := stmtsAt_le stmts ih _ _ _ _ h.2
    omega
  | ifThen tag cond body =>
    cases body with
    | compound ctag stmts =>
      rw [StmtAt] at h
      obtain ⟨_, _, k, -, -, hbody, rfl, -⟩ := h
      have := stmtsAt_le stmts (ih₂ (.compound ctag stmts) (by simp [Node.parts])) _ _ _ _ hbody
      omega
    | _ => simp [StmtAt] at h
  | loop tag cond body =>
    cases body with
    | compound ctag stmts =>
      rw [StmtAt] at h
      obtain ⟨-, _, _, k, -, -, hbody, rfl, -⟩ := h
      have := stmtsAt_le stmts (ih₂ (.compound ctag stmts) (by simp [Node.parts])) _ _ _ _ hbody
      omega
    | _ => simp [StmtAt] at h
  | scan tag target =>
    cases target with
    | ident itag name =>
      rw [StmtAt] at h
      obtain ⟨_, _, _, -, -, -, rfl, -⟩ := h
      exact Nat.le_refl j
    | _ => simp [StmtAt] at h
  | _ =>
    simp only [StmtAt] at h
    obtain ⟨_, _, -, rfl, -⟩ := h
    exact Nat.le_refl j

theorem stmts_run : ∀ (ns : List Node), (∀ n ∈ ns, StmtRuns M su fin g n) →
    ∀ (env : Env) (fuel : Nat) (base : List V) (σ : Mem V) (slots : Slot → Option V) (i j : Nat)
      (rest rest' : List Instr), StmtsAt su fin g (blocksOf fin g) ns i rest j rest' →
      j < fin.module.count g → env.isNested = true → (∀ s ∈ sitesAll env ns, Seen su s) →
      env.Each (Holds fin σ.vars slots) → Apart env (ns.flatMap Node.labels) →
      (ns.flatMap Node.labels).Nodup → (∀ n ∈ ns, Fit fin n) →
        Sim M fin fuel base (env.extend (declaredAll ns)) ⟨g, j⟩ rest'
          ⟨⟨g, i⟩, rest, ⟨slots, σ.out.reverse ++ base⟩⟩ (execAll (reading M su) fuel ns σ) := by
  intro ns
  induction ns with
  | nil =>
    intro _ env fuel base σ slots i j rest rest' hat _ _ _ hholds _ _ _
    rw [StmtsAt] at hat
    obtain ⟨rfl, rfl⟩ := hat
    rw [execAll]
    exact ⟨0, slots, rfl, hholds⟩
  | cons n ns ih =>
    intro hruns env fuel base σ slots i j rest rest' hat hj hnest hseen hholds hap hu hfit
    rw [StmtsAt] at hat
    obtain ⟨l, mid, hn, hns⟩ := hat
    rw [sitesAll, List.forall_mem_append] at hseen
    rw [List.flatMap_cons] at hap hu
    obtain ⟨-, hu', hdisj⟩ := List.nodup_append'.mp hu
    have hl : l ≤ j := stmtsAt_le ns (fun m _ => stmtAt_le m) l mid j rest' hns
    have hsim := hruns n (by simp) env fuel base σ slots i l rest mid hn (by omega) hnest
      hseen.1 hholds (hap.mono (List.subset_append_left _ _)) (hfit n (by simp))
    rw [execAll, declaredAll, Env.extend_append]
    refine hsim.andThen fun σ' slots' hholds' => ?_
    refine ih (fun m hm => hruns m (by simp [hm])) _ fuel base σ' slots' l j mid rest' hns hj
      (by rwa [Env.extend_isNested]) hseen.2 hholds' ?_ hu' fun m hm => hfit m (by simp [hm])
    exact Env.Each.extend (hap.mono (List.subset_append_right _ _)) fun x hx hmem =>
      hdisj (label_of_declared hx) hmem

theorem compound_runs {ctag : Tag} {stmts : List Node}
    (hruns : ∀ n ∈ stmts, StmtRuns M su fin g n) (fuel : Nat) (base : List V) {env : Env}
    {σ : Mem V} {slots : Slot → Option V} {i j : Nat} {rest rest' : List Instr}
    (hat : StmtsAt su fin g (blocksOf fin g) stmts i rest j rest') (hj : j < fin.module.count g)
    (hseen : ∀ s ∈ sites env (.compound ctag stmts), Seen su s)
    (hholds : env.Each (Holds fin σ.vars slots))
    (hap : Apart env (Node.compound ctag stmts).labels) (hfit : Fit fin (.compound ctag stmts)) :
    Sim M fin fuel base env ⟨g, j⟩ rest' ⟨⟨g, i⟩, rest, ⟨slots, σ.out.reverse ++ base⟩⟩
      (exec (reading M su) fuel (.compound ctag stmts) σ) := by
  rw [sites, List.forall_mem_cons] at hseen
  have hsub : stmts.flatMap Node.labels ⊆ (Node.compound ctag stmts).labels := by
    rw [Node.labels_eq]
    exact List.subset_append_right _ _
  rw [exec]
  refine (stmts_run stmts hruns (env.enter []) fuel base σ slots i j rest rest' hat hj rfl hseen.2
    (hholds.enter (by simp)) (Env.Each.enter (hap.mono hsub) (by simp))
    (Node.nodup_parts hfit.labels) fun m hm => hfit.part hm).weaken fun vars slots h => h.of_enter

/-- An expression runs to its value, and the variables stay where they are. -/
theorem expr_step {n : Node} {env : Env} {vars : Vars V} {slots : Slot → Option V}
    {stack : List V} {slot : Slot} {code : List Instr} (hcode : ExprCode su fin n slot code)
    (hseen : ∀ s ∈ sites env n, Seen su s) (hholds : env.Each (Holds fin vars slots))
    (hap : Apart env n.labels) (hfit : Fit fin n) (r : BlockRef) (rest : List Instr) :
    ∃ v slots', eval (reading M su) vars n = some v ∧ slots' slot = some v ∧
      run M fin.module code.length ⟨r, code ++ rest, ⟨slots, stack⟩⟩ =
        .running ⟨r, rest, ⟨slots', stack⟩⟩ ∧
      env.Each (Holds fin vars slots') := by
  obtain ⟨hplain, v, ⟨slots', stack'⟩, hv, hrun, hstack, hval, hsame⟩ :=
    expr_runs n env vars ⟨slots, stack⟩ slot code hcode hseen hholds hap hfit.labels hfit.call
  obtain rfl : stack' = stack := hstack
  exact ⟨v, slots', hv, hval, run_code r rest hplain hrun, hap.holds hholds (fun _ _ => rfl) hsame⟩

theorem var_runs {tag : Tag} {name : String} {type : ValueType} {init : Node} :
    StmtRuns M su fin g (.var tag name type init) := by
  intro env fuel base σ slots i j rest rest' hat _ hnest hseen hholds hap hfit
  have hself : tag.label ∈ (Node.var tag name type init).labels := Node.label_mem_labels rfl
  by_cases hinit : init = .absent
  · subst hinit
    rw [StmtAt] at hat
    obtain ⟨rfl, rfl⟩ := hat
    have hunheld := hfit.unheld tag name type (Node.mem_nodes_self rfl)
    rw [exec, declared, declared, List.nil_append]
    exact ⟨0, slots, rfl, holds_of_unheld
      (hap.holds hholds (Vars.set_notMem hself) fun _ _ => rfl) hunheld name⟩
  · rw [sites, List.forall_mem_cons] at hseen
    obtain ⟨source, slot, c, hcode, hslot, rfl, rfl⟩ :=
      stmtAt_var_local hinit (hseen.1 hnest) hat
    have hpart : init ∈ (Node.var tag name type init).parts := by simp [Node.parts]
    obtain ⟨v, slots₁, hv, hval, hrun, hholds₁⟩ := expr_step hcode hseen.2 hholds
      (hap.mono (Node.labels_part_subset hpart)) (hfit.part hpart) ⟨g, j⟩
      (⟨.mov, [.slot slot, .slot source]⟩ :: rest')
    have hmov : run M fin.module 1 ⟨⟨g, j⟩, ⟨.mov, [.slot slot, .slot source]⟩ :: rest',
        ⟨slots₁, σ.out.reverse ++ base⟩⟩ =
        .running ⟨⟨g, j⟩, rest', Store.write ⟨slots₁, σ.out.reverse ++ base⟩ slot v⟩ := by
      refine run_plain rfl ?_
      show (slots₁ source).map _ = _
      rw [hval]
      rfl
    rw [exec_var _ hinit, hv, Option.elim_some, declared,
      declared_of_exprCode init source c hcode, List.nil_append]
    exact ⟨c.length + 1, _, (run_trans hrun).trans hmov,
      hap.holds_assigned hholds₁ hself hslot name v⟩

theorem print_runs (hh : StackPrint su) {tag : Tag} {expr : Node} :
    StmtRuns M su fin g (.print tag expr) := by
  intro env fuel base σ slots i j rest rest' hat _ _ hseen hholds hap hfit
  rw [StmtAt] at hat
  obtain ⟨slot, c, out, hcode, ⟨served, hout⟩, rfl, rfl⟩ := hat
  obtain rfl := hh.print served slot out hout
  have hpart : expr ∈ (Node.print tag expr).parts := by simp [Node.parts]
  rw [sites, List.forall_mem_cons] at hseen
  obtain ⟨v, slots', hv, hval, hrun, hholds'⟩ := expr_step hcode hseen.2 hholds
    (hap.mono (Node.labels_part_subset hpart)) (hfit.part hpart) ⟨g, j⟩
    (⟨.push, [.slot slot]⟩ :: rest')
  rw [exec, hv, Option.elim_some, declared, declared_of_exprCode expr slot c hcode]
  refine ⟨c.length + 1, slots', ?_, hholds'⟩
  rw [List.append_assoc, List.reverse_append]
  exact (run_trans hrun).trans (run_push hval)

theorem ret_runs (hh : StackPrint su) {tag : Tag} {expr : Node} :
    StmtRuns M su fin g (.ret tag expr) := by
  intro env fuel base σ slots i j rest rest' hat _ _ hseen hholds hap hfit
  by_cases hexpr : expr = .absent
  · subst hexpr
    rw [StmtAt] at hat
    obtain ⟨rfl, rfl⟩ := hat
    rw [exec]
    exact ⟨1, ⟨slots, σ.out.reverse ++ base⟩, run_ret rfl, rfl⟩
  · obtain ⟨slot, c, out, hcode, hout, rfl, rfl⟩ := (stmtAt_ret hexpr).mp hat
    obtain rfl := answered_stack hh.convention rfl hout
    have hpart : expr ∈ (Node.ret tag expr).parts := by simp [Node.parts]
    rw [sites, List.forall_mem_cons] at hseen
    obtain ⟨v, slots', hv, hval, hrun, -⟩ := expr_step hcode hseen.2 hholds
      (hap.mono (Node.labels_part_subset hpart)) (hfit.part hpart) ⟨g, j⟩
      (⟨.push, [.slot slot]⟩ :: ⟨.ret, []⟩ :: rest')
    rw [exec_ret _ hexpr, hv, Option.elim_some]
    refine ⟨c.length + (1 + 1), ⟨slots', v :: (σ.out.reverse ++ base)⟩, ?_, rfl⟩
    rw [List.append_assoc]
    exact (run_trans hrun).trans ((run_trans (run_push hval)).trans (run_ret rfl))

theorem ifThen_runs {tag ctag : Tag} {cond : Node} {stmts : List Node}
    (hruns : ∀ n ∈ stmts, StmtRuns M su fin g n) :
    StmtRuns M su fin g (.ifThen tag cond (.compound ctag stmts)) := by
  intro env fuel base σ slots i j rest rest' hat hj _ hseen hholds hap hfit
  rw [StmtAt] at hat
  obtain ⟨slot, c, l, hcond, rfl, hbody, rfl, rfl⟩ := hat
  have hnone := declared_of_exprCode cond slot c hcond
  have hpart : cond ∈ (Node.ifThen tag cond (.compound ctag stmts)).parts := by simp [Node.parts]
  have hpart' : Node.compound ctag stmts ∈ (Node.ifThen tag cond (.compound ctag stmts)).parts := by
    simp [Node.parts]
  have hl : i + 1 ≤ l := stmtsAt_le stmts (fun m _ => stmtAt_le m) _ _ _ _ hbody
  rw [sites, hnone, Env.extend_nil, List.forall_mem_cons, List.forall_mem_append] at hseen
  obtain ⟨-, hseenC, hseenB⟩ := hseen
  obtain ⟨v, slots', hv, hval, hrun, hholds'⟩ := expr_step hcond hseenC hholds
    (hap.mono (Node.labels_part_subset hpart)) (hfit.part hpart) ⟨g, i⟩
    (branchTo slot ⟨g, i + 1⟩ ⟨g, l + 1⟩)
  rw [exec, hv, Option.elim_some, declared, hnone, declared, List.append_nil, Env.extend_nil]
  refine Sim.steps hrun ?_
  by_cases htruth : M.truth v = true
  · -- Into the body, and from its end to the exit.
    rw [show (reading M su).meaning.truth v = true from htruth, if_pos rfl]
    have hround := compound_runs hruns fuel base hbody (by omega) hseenB hholds'
      (hap.mono (Node.labels_part_subset hpart')) (hfit.part hpart')
    exact Sim.steps (run_branch hval (if_pos htruth) (by omega)) (hround.jump hj)
  · rw [if_neg (show ¬(reading M su).meaning.truth v = true from htruth)]
    exact ⟨1, slots', run_branch hval (if_neg htruth) hj, hholds'⟩

theorem loop_runs {tag ctag : Tag} {cond : Node} {stmts : List Node}
    (hruns : ∀ n ∈ stmts, StmtRuns M su fin g n) :
    StmtRuns M su fin g (.loop tag cond (.compound ctag stmts)) := by
  intro env fuel base σ slots i j rest rest' hat hj _ hseen hholds hap hfit
  rw [StmtAt] at hat
  obtain ⟨rfl, slot, c, l, hcond, hheader, hbody, rfl, rfl⟩ := hat
  have hnone := declared_of_exprCode cond slot c hcond
  have hpart : cond ∈ (Node.loop tag cond (.compound ctag stmts)).parts := by simp [Node.parts]
  have hpart' : Node.compound ctag stmts ∈ (Node.loop tag cond (.compound ctag stmts)).parts := by
    simp [Node.parts]
  have hl : i + 2 ≤ l := stmtsAt_le stmts (fun m _ => stmtAt_le m) _ _ _ _ hbody
  rw [sites, hnone, Env.extend_nil, List.forall_mem_cons, List.forall_mem_append] at hseen
  obtain ⟨-, hseenC, hseenB⟩ := hseen
  -- From the header on, a round of evaluation is at least one step of the machine.
  have header : ∀ q, q ≤ fuel → ∀ (σ : Mem V) (slots : Slot → Option V),
      env.Each (Holds fin σ.vars slots) →
      Sim M fin q base env ⟨g, l + 1⟩ (fin.module.code ⟨g, l + 1⟩)
        ⟨⟨g, i + 1⟩, fin.module.code ⟨g, i + 1⟩, ⟨slots, σ.out.reverse ++ base⟩⟩
        (rounds (reading M su) (fun σ => eval (reading M su) σ.vars cond)
          (exec (reading M su) fuel (.compound ctag stmts)) q σ) := by
    intro q
    induction q with
    | zero =>
      intro _ σ slots _
      exact ⟨0, _, Nat.le_refl 0, rfl⟩
    | succ q ih =>
      intro hq σ slots hholds
      rw [show fin.module.code ⟨g, i + 1⟩ = _ from hheader]
      obtain ⟨v, slots', hv, hval, hrun, hholds'⟩ := expr_step hcond hseenC hholds
        (hap.mono (Node.labels_part_subset hpart)) (hfit.part hpart) ⟨g, i + 1⟩
        (branchTo slot ⟨g, i + 2⟩ ⟨g, l + 1⟩)
      rw [rounds, hv, Option.elim_some]
      refine Sim.steps hrun ?_
      by_cases htruth : M.truth v = true
      · rw [if_pos (show (reading M su).meaning.truth v = true from htruth), Nat.add_comm]
        refine Sim.behind (run_branch hval (if_pos htruth) (by omega)) ?_
        have hround := compound_runs hruns fuel base hbody (by omega) hseenB hholds'
          (hap.mono (Node.labels_part_subset hpart')) (hfit.part hpart')
        exact ((hround.jump (by omega)).le (by omega)).andThen fun σ' slots'' h =>
          ih (by omega) σ' slots'' h
      · rw [if_neg (show ¬(reading M su).meaning.truth v = true from htruth)]
        exact ⟨1, slots', run_branch hval (if_neg htruth) hj, hholds'⟩
  rw [exec, declared, hnone, declared, List.append_nil, Env.extend_nil]
  exact Sim.steps (run_nil (by omega)) (header fuel (Nat.le_refl fuel) σ slots hholds)

/-- **The machine follows a statement.** -/
theorem stmt_runs (hh : StackPrint su) : ∀ n : Node, StmtRuns M su fin g n := by
  intro n
  induction n using Node.parts_induction with
  | _ n ih ih₂ =>
  cases n with
  | var tag name type init => exact var_runs
  | print tag expr => exact print_runs hh
  | ret tag expr => exact ret_runs hh
  | compound ctag stmts =>
    intro env fuel base σ slots i j rest rest' hat hj _ hseen hholds hap hfit
    rw [StmtAt] at hat
    obtain ⟨rfl, hat⟩ := hat
    have hl : i + 1 ≤ j := stmtsAt_le stmts (fun m _ => stmtAt_le m) _ _ _ _ hat
    rw [declared, Env.extend_nil]
    exact Sim.steps (run_nil (by omega)) (compound_runs ih fuel base hat hj hseen hholds hap hfit)
  | ifThen tag cond body =>
    cases body with
    | compound ctag stmts =>
      exact ifThen_runs fun p hp => ih₂ (.compound ctag stmts) (by simp [Node.parts]) p hp
    | _ =>
      intro env fuel base σ slots i j rest rest' hat
      simp [StmtAt] at hat
  | loop tag cond body =>
    cases body with
    | compound ctag stmts =>
      exact loop_runs fun p hp => ih₂ (.compound ctag stmts) (by simp [Node.parts]) p hp
    | _ =>
      intro env fuel base σ slots i j rest rest' hat
      simp [StmtAt] at hat
  | scan tag target =>
    intro env fuel base σ slots i j rest rest' _ _ _ _ _ _ hfit
    exact absurd (Node.mem_nodes_self rfl) (hfit.scan tag target)
  | _ =>
    intro env fuel base σ slots i j rest rest' hat _ _ hseen hholds hap hfit
    simp only [StmtAt] at hat
    obtain ⟨slot, c, hcode, rfl, rfl⟩ := hat
    obtain ⟨v, slots', hv, -, hrun, hholds'⟩ := expr_step hcode hseen hholds hap hfit ⟨g, j⟩ rest'
    rw [exec_of_exprCode hcode, hv, Option.elim_some, declared_of_exprCode _ slot c hcode]
    exact ⟨c.length, slots', hrun, hholds'⟩

end Stmt

/-! ## Programs -/

/-- The variables before a declaration are others than those in it. -/
theorem apart_behind {tag : Tag} {decls before after : List Node} {d : Node}
    (hu : (Node.program tag decls).Unshared) (hsplit : decls = before ++ d :: after) :
    Apart (envBehind decls before) d.labels := by
  have hnodup : (decls.flatMap Node.labels).Nodup := Node.nodup_parts hu
  rw [hsplit, List.flatMap_append, List.flatMap_cons, List.nodup_append'] at hnodup
  refine (programEnv_each decls _).extend fun x hx hmem => ?_
  rw [declaredAll_eq] at hx
  obtain ⟨n, hn, hx⟩ := List.mem_flatMap.mp hx
  exact hnodup.2.2 (List.mem_flatMap.mpr ⟨n, hn, label_of_declared hx⟩)
    (List.mem_append_left _ hmem)

theorem bindParams_cons {p : Node} {ptag : Tag} (h : p.tag? = some ptag) (params : List Node)
    (v : V) (args : List V) (vars : Vars V) :
    bindParams (p :: params) (v :: args) vars =
      bindParams params args (vars.set ptag.label (some v)) := by
  rw [bindParams, Node.label?, h]
  rfl

theorem paramSymbols_cons {p : Node} {ptag : Tag} (h : p.tag? = some ptag) (params : List Node) :
    paramSymbols (p :: params) =
      ⟨p.name, .param, ⟨ptag.label, ptag.kind, p.name⟩⟩ :: paramSymbols params := by
  rw [paramSymbols, List.filterMap_cons_some (b := (⟨p.name, .param,
    ⟨ptag.label, ptag.kind, p.name⟩⟩, ptag.pos)) (by rw [symbolOf?, h]; rfl), List.map_cons]
  rfl

theorem params_run {M : Meaning V} {fin : State} (hnone : fin.slots.slot? none = none) :
    ∀ (params : List Node) (slots : List Slot) (args : List V) (vars : Vars V)
      (held : Slot → Option V) (base : List V),
      (params.map fun p => fin.slots.slot? p.label?) = slots.map some →
      args.length = params.length → (params.flatMap Node.labels).Nodup →
        ∃ held', runCode M fin.module (slots.reverse.map fun s => ⟨.pop, [.slot s]⟩)
            ⟨held, args.reverse ++ base⟩ = some ⟨held', base⟩ ∧
          (∀ x ∈ paramSymbols params, Holds fin (bindParams params args vars) held' x) ∧
          (∀ l, l ∉ params.flatMap Node.labels → bindParams params args vars l = vars l) ∧
          SameBut fin (params.flatMap Node.labels) held held' := by
  intro params
  induction params with
  | nil =>
    intro slots args vars held base hslots hlen _
    obtain rfl : slots = [] := by simpa using hslots.symm
    obtain rfl : args = [] := List.length_eq_zero_iff.mp hlen
    exact ⟨held, rfl, by simp [paramSymbols], fun _ _ => rfl, fun _ _ => rfl⟩
  | cons p params ih =>
    intro slots args vars held base hslots hlen hu
    obtain ⟨slot, slots, rfl⟩ : ∃ a b, slots = a :: b := by
      cases slots with
      | nil => simp at hslots
      | cons a b => exact ⟨a, b, rfl⟩
    obtain ⟨v, args, rfl⟩ : ∃ a b, args = a :: b := by
      cases args with
      | nil => simp at hlen
      | cons a b => exact ⟨a, b, rfl⟩
    simp only [List.map_cons, List.cons.injEq] at hslots
    obtain ⟨hslot, hslots⟩ := hslots
    obtain ⟨ptag, htag⟩ : ∃ ptag, p.tag? = some ptag := by
      cases htag : p.tag? with
      | none => simp [Node.label?, htag, hnone] at hslot
      | some ptag => exact ⟨ptag, rfl⟩
    have hlabel : p.label? = some ptag.label := by rw [Node.label?, htag]; rfl
    rw [hlabel] at hslot
    rw [List.flatMap_cons, List.nodup_append'] at hu
    obtain ⟨-, hu, hdisj⟩ := hu
    have hself : ptag.label ∈ p.labels := Node.label_mem_labels htag
    have hnot : ptag.label ∉ params.flatMap Node.labels := fun h => hdisj hself h
    obtain ⟨held₁, hrun, hholds, hvars, hsame⟩ :=
      ih slots args (vars.set ptag.label (some v)) held (v :: base) hslots (by simpa using hlen) hu
    rw [bindParams_cons htag, List.flatMap_cons]
    refine ⟨(Store.write ⟨held₁, base⟩ slot v).slots, ?_, ?_, fun l hl => ?_, ?_⟩
    · simp only [List.reverse_cons, List.map_append, List.append_assoc, List.singleton_append,
        runCode_append]
      rw [hrun]
      rfl
    · intro x hx k hk
      rw [paramSymbols_cons htag, List.mem_cons] at hx
      rcases hx with rfl | hx
      · cases hslot.symm.trans hk
        exact ⟨v, (hvars _ hnot).trans (Vars.set_self ..), Store.write_slots_self ..⟩
      · -- The slot of another parameter is another one.
        obtain ⟨w, hw, hheld⟩ := hholds x hx k hk
        refine ⟨w, hw, (Store.write_slots_ne ?_).trans hheld⟩
        rintro rfl
        obtain ⟨q, hq, hql⟩ := label_of_paramSymbols hx
        refine hnot (List.mem_flatMap.mpr ⟨q, hq, ?_⟩)
        rw [slot?_inj hslot hk, Node.labels_eq, hql]
        simp
    · rw [List.mem_append, not_or] at hl
      exact (hvars l hl.2).trans (Vars.set_notMem hself l hl.1)
    · exact (hsame.mono (List.subset_append_right _ _)).trans
        (sameBut_write (s := ⟨held₁, base⟩) hslot (List.mem_append_left _ hself))

section Program

variable {M : Meaning V} {su : Setup} {fin : State} {tag : Tag} {decls : List Node}

/-- The global sequence evaluates the variables of the program scope. -/
theorem globals_run (hacc : Accepted su decls fin) (hu : (Node.program tag decls).Unshared)
    (hcall : CallFree (.program tag decls))
    (hunheld : ∀ vtag name type, .var vtag name type .absent ∈ decls →
      fin.slots.slot? (some vtag.label) = none) :
    ∀ (rest before : List Node) (vars : Vars V) (s : Store V) (code : List Instr),
      decls = before ++ rest → GlobalsCode su fin rest code →
      (envBehind decls before).Each (Holds fin vars s.slots) →
        ∃ vars' s', initVars (reading M su) rest vars = some vars' ∧
          runCode M fin.module code s = some s' ∧ s'.stack = s.stack ∧
          (envBehind decls decls).Each (Holds fin vars' s'.slots) := by
  intro rest
  induction rest with
  | nil =>
    intro before vars s code hsplit hcode hholds
    rw [GlobalsCode] at hcode
    rw [List.append_nil] at hsplit
    rw [← hsplit] at hholds
    rw [hcode]
    exact ⟨vars, s, rfl, rfl, rfl, hholds⟩
  | cons d rest ih =>
    intro before vars s code hsplit hcode hholds
    have hd : d ∈ decls := by rw [hsplit]; simp
    have hsplit' : decls = before ++ [d] ++ rest := by rw [List.append_assoc]; exact hsplit
    have hseen : ∀ s ∈ sites (envBehind decls before) d, Seen su s :=
      fun s hs => hacc.seen s (sites_of_split hsplit s hs)
    have hap := apart_behind hu hsplit
    cases hacc.proper d hd with
    | function hk =>
      rw [GlobalsCode] at hcode
      obtain ⟨c, e, -, hnone, hrest, rfl⟩ := hcode
      rw [hnone (hacc.locals _ _ _ _ _ hd), List.nil_append]
      simp only [initVars]
      refine ih _ vars s e hsplit' hrest ?_
      rw [envBehind_concat, declared, Env.extend_nil]
      exact hholds
    | @var vtag name type init hk =>
      by_cases hinit : init = .absent
      · subst hinit
        rw [GlobalsCode] at hcode
        rw [initVars]
        refine ih _ vars s code hsplit' hcode ?_
        rw [envBehind_concat, declared, declared, List.nil_append]
        exact holds_of_unheld hholds (hunheld vtag name type hd) name
      · obtain ⟨source, slot, c, e, hexpr, hslot, hrest, rfl⟩ := (globalsCode_var hinit).mp hcode
        have hpart : init ∈ (Node.var vtag name type init).parts := by simp [Node.parts]
        have hnodup : (Node.var vtag name type init).labels.Nodup := Node.nodup_part hu hd
        rw [sites, List.forall_mem_cons] at hseen
        have hap' := hap.mono (Node.labels_part_subset hpart)
        obtain ⟨-, v, s₁, hv, hrun, hstack, hval, hsame⟩ :=
          expr_runs init _ vars s source c hexpr hseen.2 hholds hap'
            (Node.nodup_part hnodup hpart) ((hcall.part hd).part hpart)
        have hholds₁ : (envBehind decls (before ++ [.var vtag name type init])).Each
            (Holds fin (vars.set vtag.label (some v)) (s₁.write slot v).slots) := by
          rw [envBehind_concat, declared, declared_of_exprCode init source c hexpr,
            List.nil_append]
          exact hap.holds_assigned (hap'.holds hholds (fun _ _ => rfl) hsame)
            (Node.label_mem_labels rfl) hslot name v
        obtain ⟨vars', s', hinitVars, hrun', hstack', hholds'⟩ := ih _ _ _ e hsplit' hrest hholds₁
        refine ⟨vars', s', ?_, ?_, hstack'.trans hstack, hholds'⟩
        · rw [initVars_var _ hinit, hv]
          exact hinitVars
        · rw [runCode_append, hrun, Option.bind_some, runCode]
          show ((s₁.slots source).map _).bind _ = _
          rw [hval]
          exact hrun'

theorem slot?_none (hlow : Lowered su decls decls fin) : fin.slots.slot? none = none := by
  rw [Slots.slot?, List.findIdx?_eq_none_iff]
  intro o ho
  obtain ⟨l, -, rfl⟩ := hlow.owners o ho
  rfl

/-- The machine follows the evaluation of a function from its first block on. -/
theorem function_runs (hh : StackPrint su) (hacc : Accepted su decls fin)
    (hu : (Node.program tag decls).Unshared) {vars : Vars V} {slots : Slot → Option V}
    (hholds : (envBehind decls decls).Each (Holds fin vars slots)) {ftag : Tag} {name : String}
    {params : List Node} {result : ValueType} {body : Node}
    (hd : .function ftag name params result body ∈ decls) (hfit : Fit fin body) {g : Nat}
    (hcode : FunctionCode su fin g (blocksOf fin g) (fin.module.count g) params body)
    {j : Nat} (hcount : fin.module.count g = j + 1) {args : List V}
    (hlen : args.length = params.length) (fuel : Nat) (base : List V) :
    Sim M fin fuel base (programEnv decls) ⟨g, j⟩ []
      ⟨⟨g, 0⟩, fin.module.code ⟨g, 0⟩, ⟨slots, args.reverse ++ base⟩⟩
      (call (reading M su) fuel params body args vars) := by
  obtain ⟨before, behind, hsplit⟩ := List.append_of_mem hd
  obtain ⟨ctag, stmts, pslots, j', rfl, hslots, hparams, hat, hcount'⟩ := hcode
  obtain rfl : j' = j := by omega
  have hpops : fin.module.code ⟨g, 0⟩ = pslots.reverse.map fun s => ⟨.pop, [.slot s]⟩ := by
    rw [ParamsIn] at hparams
    split at hparams
    · next he => rw [he]; exact hparams
    · exact answered_stack hh.convention rfl hparams
  have hnodup := Node.nodup_parts (Node.nodup_part hu hd)
  rw [Node.parts, List.flatMap_append, List.nodup_append'] at hnodup
  obtain ⟨hnodupP, -, hdisj⟩ := hnodup
  have hap := apart_behind hu hsplit
  have hbody : Node.compound ctag stmts ∈
      (Node.function ftag name params result (.compound ctag stmts)).parts := by simp [Node.parts]
  have hsubP : params.flatMap Node.labels ⊆
      (Node.function ftag name params result (.compound ctag stmts)).labels := by
    intro l hl
    rw [Node.labels_eq, Node.parts, List.flatMap_append]
    exact List.mem_append_right _ (List.mem_append_left _ hl)
  have hsubB : stmts.flatMap Node.labels ⊆ (Node.compound ctag stmts).labels := by
    rw [Node.labels_eq]
    exact List.subset_append_right _ _
  have hbehind : (envBehind decls before).Each (Holds fin vars slots) := by
    rw [hsplit] at hholds ⊢
    exact envBehind_each hholds
  -- The parameters arrive, and the variables of the program scope stay.
  obtain ⟨held, hrun, hheld, hvars, hsame⟩ :=
    params_run (M := M) (slot?_none hacc.lowered) params pslots args vars slots base hslots hlen
      hnodupP
  have henv : ((envBehind decls before).enter (paramSymbols params).reverse).Each
      (Holds fin (bindParams params args vars) held) :=
    Env.Each.enter ((hap.mono hsubP).holds hbehind hvars hsame)
      fun x hx => hheld x (List.mem_reverse.mp hx)
  have hentry := run_code ⟨g, 0⟩ [] (by simp [Instr.isPlain]) hrun
  rw [List.append_nil, ← hpops] at hentry
  have hj : 1 ≤ j' := stmtsAt_le stmts (fun m _ => stmtAt_le m) _ _ _ _ hat
  have hsim := stmts_run (M := M) stmts (fun n _ => stmt_runs hh n) _ fuel base
    ⟨bindParams params args vars, []⟩ held 1 j' _ _ hat (by omega) rfl (seen_body hsplit hacc.seen)
    henv
    (Env.Each.enter ((hap.mono (Node.labels_part_subset hbody)).mono hsubB) fun x hx hmem => by
      obtain ⟨p, hp, hpl⟩ := label_of_paramSymbols (List.mem_reverse.mp hx)
      refine hdisj (List.mem_flatMap.mpr ⟨p, hp, ?_⟩) (List.mem_append_left _ (hsubB hmem))
      rw [Node.labels_eq, hpl]
      simp)
    (Node.nodup_parts hfit.labels) fun n hn => hfit.part hn
  rw [call, exec]
  refine Sim.steps hentry (Sim.steps (run_nil (by omega)) ?_)
  exact hsim.weaken fun _ _ _ => programEnv_each decls _

end Program

/-! ## The same course -/

/-- The machine, begun at `c`, takes the course of an evaluation that is given more and more
rounds: neither of them is ever stuck, and the machine halts exactly if the evaluation comes
to an end, with the returned value and the printed ones on the stack. -/
structure SameCourse (M : Meaning V) (m : Module) (base : List V) (c : Config V)
    (results : Nat → Result V) : Prop where
  defined : ∀ fuel, results fuel ≠ .stuck
  unstuck : ∀ k, run M m k c ≠ .stuck
  halts : ∀ stack, (∃ k s, run M m k c = .halted s ∧ s.stack = stack) ↔
    ∃ fuel value out, (results fuel).end? = some (value, out) ∧
      stack = value.toList ++ (out.reverse ++ base)

/-- What a run of the machine comes to when a function is simulated to its end. -/
theorem Sim.ends {M : Meaning V} {fin : State} {need : Nat} {base : List V} {env : Env}
    {g j : Nat} {c : Config V} {res : Result V} (h : Sim M fin need base env ⟨g, j⟩ [] c res)
    (hj : fin.module.count g = j + 1) :
    (∃ value out k s, res.end? = some (value, out) ∧ run M fin.module k c = .halted s ∧
      s.stack = value.toList ++ (out.reverse ++ base)) ∨
    (res = .timeout ∧ ∃ k c', need ≤ k ∧ run M fin.module k c = .running c') := by
  cases res with
  | next σ =>
    obtain ⟨k, slots, hrun, -⟩ := h
    have hend := (run_trans hrun).trans (run_end (Nat.le_of_eq hj))
    exact .inl ⟨none, σ.out, k + 1, _, rfl, hend, rfl⟩
  | returned value σ =>
    obtain ⟨k, s, hrun, hs⟩ := h
    exact .inl ⟨value, σ.out, k, s, rfl, hrun, hs⟩
  | timeout => exact .inr ⟨rfl, h⟩
  | stuck => exact h.elim

theorem sameCourse_of_sim {M : Meaning V} {fin : State} {base : List V} {env : Env} {g j : Nat}
    {c : Config V} {results : Nat → Result V} (hj : fin.module.count g = j + 1)
    (h : ∀ fuel, Sim M fin fuel base env ⟨g, j⟩ [] c (results fuel)) :
    SameCourse M fin.module base c results := by
  refine ⟨fun fuel he => ?_, fun k hk => ?_, fun stack => ⟨?_, ?_⟩⟩
  · have hsim := h fuel
    rw [he] at hsim
    exact hsim
  · -- With as many rounds as steps, the evaluation outlasts the machine or ends.
    rcases (h k).ends hj with ⟨_, _, l, s, -, hl, -⟩ | ⟨-, l, c', hle, hl⟩
    · rcases Nat.le_total k l with hkl | hkl
      · cases (run_stuck hk hkl).symm.trans hl
      · cases (run_halted hl hkl).symm.trans hk
    · cases (run_stuck hk hle).symm.trans hl
  · rintro ⟨k, s, hk, rfl⟩
    rcases (h (k + 1)).ends hj with ⟨value, out, l, s', hend, hl, hs'⟩ | ⟨-, l, c', hle, hl⟩
    · refine ⟨k + 1, value, out, hend, ?_⟩
      have hmax := run_halted hk (Nat.le_max_left k l)
      cases hmax.symm.trans (run_halted hl (Nat.le_max_right k l))
      exact hs'
    · cases (run_halted hk (by omega)).symm.trans hl
  · rintro ⟨fuel, value, out, hend, rfl⟩
    rcases (h fuel).ends hj with ⟨value', out', k, s, hend', hk, hs⟩ | ⟨he, -⟩
    · cases hend.symm.trans hend'
      exact ⟨k, s, hk, hs⟩
    · rw [he] at hend
      cases hend

/-- The code of a module does what the program means: the global sequence runs through where
the variables of the program scope can be evaluated, and then every function, begun with its
arguments on the stack, takes the course of its evaluation. -/
def Preserves (R : Reading V) (decls : List Node) (m : Module) : Prop :=
  ∀ (slots₀ : Slot → Option V) (base : List V), ∃ vars slots,
    initVars R decls (fun _ => none) = some vars ∧
    runCode R.meaning m m.globals ⟨slots₀, base⟩ = some ⟨slots, base⟩ ∧
    ∀ tag name params result body, .function tag name params result body ∈ decls →
      ∀ args : List V, args.length = params.length → ∃ f entry block,
        m.function? name = some f ∧ m.entry? f.graph = some entry ∧ m.block? entry = some block ∧
        SameCourse R.meaning m base ⟨entry, block.instrs, ⟨slots, args.reverse ++ base⟩⟩
          fun fuel => call R fuel params body args vars

section Selected

variable {su : Setup} {tag : Tag} {decls : List Node} {t : Table} {b₀ b : Bindings} {u : Unit}
  {fin : State}

theorem preserves_lowered (hh : StackPrint su) (hu : (Node.program tag decls).Unshared)
    (hres : resolveProgram (.program tag decls) b₀ = .ok t b) (hb : su.bindings = b)
    (hg : su.isGlobal = t.isGlobal) (hsel : select su (.program tag decls) = .ok u fin)
    (hcall : CallFree (.program tag decls)) (hscan : ScanFree (.program tag decls))
    (M : Meaning V) : Preserves (reading M su) decls fin.module := by
  have hacc := accepted hu hres hb hg hsel
  have hlow := hacc.lowered
  intro slots₀ base
  obtain ⟨vars, ⟨slots, stack⟩, hvars, hrun, hstack, hholds⟩ :=
    globals_run (M := M) hacc hu hcall
      (fun vtag name type hd => by
        obtain ⟨before, behind, hsplit⟩ := List.append_of_mem hd
        exact unheld_global hlow hu hscan hsplit)
      decls [] (fun _ => none) ⟨slots₀, base⟩ _ rfl (hlow.globals fin (Grows.refl fin))
      (programEnv_each decls _)
  obtain rfl : stack = base := hstack
  refine ⟨vars, slots, hvars, hrun, fun ftag name params result body hd args hlen => ?_⟩
  obtain ⟨g, hmem, hcode⟩ := hlow.functions ftag name params result body hd
  have hbody : body ∈ (Node.function ftag name params result body).parts := by simp [Node.parts]
  have hfit : Fit fin body :=
    ⟨Node.nodup_part (Node.nodup_part hu hd) hbody, (hcall.part hd).part hbody,
      unheld_body hlow hu hscan hd, (hscan.part hd).part hbody⟩
  have hfun := hcode fin (Grows.refl fin)
  obtain ⟨j, hj⟩ : ∃ j, fin.module.count g = j + 1 := by
    obtain ⟨_, _, _, j, -, -, -, -, hj⟩ := hfun
    exact ⟨j, hj⟩
  obtain ⟨hentry, block, hblock⟩ := entry?_of_count (m := fin.module) (g := g) (by omega)
  refine ⟨⟨name, g⟩, ⟨g, 0⟩, block, function?_of_mem hmem hlow.names, hentry, hblock, ?_⟩
  rw [← code_of_block? hblock]
  exact sameCourse_of_sim hj fun fuel =>
    function_runs hh hacc hu hholds hd hfit hfun hj hlen fuel stack

theorem opcodeFor?_of_directional (h : su.config.uses .directionalOps = true) :
    opcodeFor? su = opcodeOf? := by
  funext op
  rw [opcodeFor?]
  simp [h]

/-- **Selection preserves meaning.**  The operators stand for the operations of the table,
but where directions are not told apart, both directions stand for one. -/
theorem select_preserves (hh : StackPrint su) (hu : (Node.program tag decls).Unshared)
    (hres : resolveProgram (.program tag decls) b₀ = .ok t b) (hb : su.bindings = b)
    (hg : su.isGlobal = t.isGlobal) (hsel : select su (.program tag decls) = .ok u fin)
    (hcall : CallFree (.program tag decls)) (hscan : ScanFree (.program tag decls))
    (M : Meaning V) :
    Preserves ⟨M, opcodeFor? su, su.bindings⟩ decls fin.module ∧
      (su.config.uses .directionalOps = true →
        Preserves ⟨M, opcodeOf?, su.bindings⟩ decls fin.module) := by
  have hmain := preserves_lowered hh hu hres hb hg hsel hcall hscan M
  refine ⟨hmain, fun hdir => ?_⟩
  rw [← opcodeFor?_of_directional hdir]
  exact hmain

end Selected

/-- Values are integers, every operation but a comparison adds, and zero is false. -/
def adding : Meaning Int where
  imm := id
  bytes := fun bytes => bytes.length
  binary := fun op v w =>
    if op = .cmpGt then (if w < v then 1 else 0)
    else if op = .cmp then (if v < w then 1 else 0)
    else v + w
  truth := fun v => v ≠ 0

theorem stackPrint_stackSetup (t : Table) (b : Bindings) : StackPrint (stackSetup t b) := by
  refine ⟨rfl, fun served slot out ho => ?_⟩
  cases ho
  rfl

/-- A loop that prints sums and literals, and returns from its middle. -/
def summingDecls : List Node :=
  [.var (.nowhere 1 .varDecl) "g" .int (.number (.nowhere 2 .numberExpr) 1),
   .function (.nowhere 3 .functionDecl) "f" [.param (.nowhere 4 .paramDecl) "n" .int] .int
    (.compound (.nowhere 5 .compoundStmt)
      [.loop (.nowhere 6 .whileStmt)
        (.binary (.nowhere 7 .binaryExpr) .lt (.ident (.nowhere 8 .identExpr) "g")
          (.ident (.nowhere 9 .identExpr) "n"))
        (.compound (.nowhere 10 .compoundStmt)
          [.var (.nowhere 11 .varDecl) "x" .int
            (.binary (.nowhere 12 .binaryExpr) .plus (.ident (.nowhere 13 .identExpr) "n")
              (.ident (.nowhere 14 .identExpr) "g")),
           .print (.nowhere 15 .printStmt) (.string (.nowhere 16 .stringExpr) [104, 105]),
           .ifThen (.nowhere 17 .ifStmt) (.ident (.nowhere 18 .identExpr) "x")
            (.compound (.nowhere 19 .compoundStmt)
              [.ret (.nowhere 20 .returnStmt) (.ident (.nowhere 21 .identExpr) "x")])])])]

theorem summingDecls_preserves : ∃ t b fin,
    resolveProgram (.program (.nowhere 0 .program) summingDecls) {} = .ok t b ∧
      select (stackSetup t b) (.program (.nowhere 0 .program) summingDecls) = .ok () fin ∧
      Preserves ⟨adding, opcodeFor? (stackSetup t b), b⟩ summingDecls fin.module ∧
      Preserves ⟨adding, opcodeOf?, b⟩ summingDecls fin.module := by
  have hlowers : lowers stackSetup (.program (.nowhere 0 .program) summingDecls) = true := by
    decide +kernel
  obtain ⟨t, b, fin, hres, hsel⟩ := exists_of_lowers hlowers
  have hu : (Node.program (.nowhere 0 .program) summingDecls).Unshared := by
    unfold Node.Unshared
    decide
  have hcall : CallFree (.program (.nowhere 0 .program) summingDecls) := by
    intro tag callee args hm
    simp [summingDecls, Node.nodes, Node.walk, Node.walkAll] at hm
  have hscan : ScanFree (.program (.nowhere 0 .program) summingDecls) := by
    intro tag target hm
    simp [summingDecls, Node.nodes, Node.walk, Node.walkAll] at hm
  obtain ⟨hpres, hdir⟩ :=
    select_preserves (stackPrint_stackSetup t b) hu hres rfl rfl hsel hcall hscan adding
  exact ⟨t, b, fin, hres, hsel, hpres, hdir rfl⟩

/-- Selection that does not tell directions apart. -/
def collapsedSetup (t : Table) (b : Bindings) : Setup :=
  { stackSetup t b with
    config := Settings.Config.withFeature {} Settings.Feature.directionalOps.number false }

/-- A function that prints whether two is greater than one. -/
def comparingDecls : List Node :=
  [.function (.nowhere 1 .functionDecl) "f" [] .void
    (.compound (.nowhere 2 .compoundStmt)
      [.print (.nowhere 3 .printStmt)
        (.binary (.nowhere 4 .binaryExpr) .gt (.number (.nowhere 5 .numberExpr) 2)
          (.number (.nowhere 6 .numberExpr) 1))])]

/-- Where directions are not told apart, an operator need not mean its operation of the
table. -/
theorem comparingDecls_collapsed : ∃ t b fin,
    resolveProgram (.program (.nowhere 0 .program) comparingDecls) {} = .ok t b ∧
      select (collapsedSetup t b) (.program (.nowhere 0 .program) comparingDecls) = .ok () fin ∧
      ¬Preserves ⟨adding, opcodeOf?, b⟩ comparingDecls fin.module := by
  have hlowers : lowers collapsedSetup (.program (.nowhere 0 .program) comparingDecls) = true := by
    decide +kernel
  obtain ⟨t, b, fin, hres, hsel⟩ := exists_of_lowers hlowers
  have hu : (Node.program (.nowhere 0 .program) comparingDecls).Unshared := by
    unfold Node.Unshared
    decide
  have hcall : CallFree (.program (.nowhere 0 .program) comparingDecls) := by
    intro tag callee args hm
    simp [comparingDecls, Node.nodes, Node.walk, Node.walkAll] at hm
  have hscan : ScanFree (.program (.nowhere 0 .program) comparingDecls) := by
    intro tag target hm
    simp [comparingDecls, Node.nodes, Node.walk, Node.walkAll] at hm
  have hh : StackPrint (collapsedSetup t b) :=
    ⟨rfl, (stackPrint_stackSetup t b).print⟩
  have hpres := preserves_lowered hh hu hres rfl rfl hsel hcall hscan adding
  refine ⟨t, b, fin, hres, hsel, fun htable => ?_⟩
  -- Both would begin with the same configuration of the machine.
  obtain ⟨vars, slots, -, hrun, hfun⟩ := hpres (fun _ => none) []
  obtain ⟨vars', slots', -, hrun', hfun'⟩ := htable (fun _ => none) []
  cases hrun.symm.trans hrun'
  obtain ⟨f, entry, block, hf, hentry, hblock, hcourse⟩ :=
    hfun _ _ _ _ _ (List.mem_singleton.mpr rfl) [] rfl
  obtain ⟨f', entry', block', hf', hentry', hblock', hcourse'⟩ :=
    hfun' _ _ _ _ _ (List.mem_singleton.mpr rfl) [] rfl
  cases hf.symm.trans hf'
  cases hentry.symm.trans hentry'
  cases hblock.symm.trans hblock'
  have hhalt := (hcourse.halts [0]).mpr ⟨0, none, [0], rfl, rfl⟩
  obtain ⟨fuel, value, out, hend, hstack⟩ := (hcourse'.halts [0]).mp hhalt
  cases hend
  exact absurd (show ([0] : List Int) = [1] from hstack) (by decide)

end Isel.Select
