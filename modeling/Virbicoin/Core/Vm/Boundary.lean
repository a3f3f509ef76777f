import Virbicoin.Core.Vm.Effects

/-!
# The program counter

The interpreter goes through the code as the sweep of the jump analysis does: an instruction that
does not jump moves the program counter over itself and its data, and a jump is checked. So the
program counter only visits instruction starts (`pc_at_instruction`).

The return stack has 32 bits for a position, so this holds for codes up to that length. In a longer
one a subroutine may return into the data of a push (`pc_in_data`).
-/

namespace Virbicoin.Vm

open Lib State Params

/-- The program counter and what the return stack leads to are stops of the sweep. -/
structure Aligned (code : Bytes) (l : Local) : Prop where
  pc : Sweep code 0 l.pc
  rstack : ∀ p ∈ l.rstack, Sweep code 0 (p + 1)

theorem LocalOp.Moves.of_not_jumps {op : LocalOp} {c : Contract} {l l' : Local}
    (h : op.Moves c l l') (hjumps : op.jumps = false) (hpc : l.pc < 2 ^ 64) :
    l'.rstack = l.rstack ∧ l'.pc = (l.pc + op.width) % 2 ^ 64 := by
  have hstay : l'.rstack = l.rstack ∧ l'.pc = l.pc →
      l'.rstack = l.rstack ∧ l'.pc = (l.pc + 0) % 2 ^ 64 := fun h =>
    ⟨h.1, h.2.trans (Nat.mod_eq_of_lt hpc).symm⟩
  cases op with
  | push1 | push size => exact h
  | jump | jumpi | jumpSub | returnSub => cases hjumps
  | _ => exact hstay h

section Step

variable {env : Env} {run : RunFn} {m m1 m' : Machine} {op : OpCode} {o : Operation}

def Local.landed (o : Operation) (l : Local) : Local :=
  { l with pc := if o.jumps then l.pc else (l.pc + 1) % 2 ^ 64 }

theorem Fetched.advance (hf : Fetched env m op o) (hpc : m.loc.pc < m.contract.code.length)
    (h : Aligned m.contract.code m.loc) :
    Sweep m.contract.code 0 (m.loc.pc + 1 + o.execute.width) := by
  refine h.pc.tail ⟨hpc, ?_⟩
  rw [← hf.consistent.width, hf.1]
  rfl

theorem Prepared.flow (hp : Prepared env op o m m1) : m1.loc.pc = m.loc.pc ∧
    m1.loc.rstack = m.loc.rstack ∧ m1.contract.code = m.contract.code := by
  obtain ⟨_, -, -, _, ⟨_, _, _, _, _, rfl⟩, rfl⟩ := hp.frame
  exact ⟨rfl, rfl, rfl⟩

theorem Framed.aligned (hf : Fetched env m op o) (hpc : m.loc.pc < m.contract.code.length)
    (hlen : m.contract.code.length ≤ 2 ^ 32) (h : Aligned m.contract.code m.loc)
    (hp : Prepared env op o m m1) (hm1 : Framed o.execute m1 m') :
    Aligned m.contract.code (m'.loc.landed o) := by
  have hadv := hf.advance hpc h
  have hjumps := hf.consistent.jumps
  have hwidth := pushSize_le op
  rw [hf.consistent.width] at hwidth
  obtain ⟨hpc1, hr1, hcode1⟩ := hp.flow
  -- an instruction that does not jump moves over itself
  have hseq : o.execute.jumps = false → m'.loc.rstack = m1.loc.rstack →
      m'.loc.pc = (m.loc.pc + o.execute.width) % 2 ^ 64 →
      Aligned m.contract.code (m'.loc.landed o) := by
    intro hj hr hpc'
    rw [← hjumps] at hj
    refine ⟨?_, fun p hp => h.rstack p (hr1 ▸ hr ▸ hp)⟩
    rw [Local.landed, hj, hpc']
    rwa [show ((m.loc.pc + o.execute.width) % 2 ^ 64 + 1) % 2 ^ 64 =
      m.loc.pc + 1 + o.execute.width by omega]
  cases hx : o.execute with
  | loc lop =>
    rw [hx] at hjumps hadv hseq
    have hmove := hm1.moves lop hx
    cases hj : lop.jumps with
    | false =>
      obtain ⟨hr, hpc'⟩ := hmove.of_not_jumps hj (by omega)
      exact hseq hj hr (hpc1 ▸ hpc')
    | true =>
      have hland : m'.loc.landed o = m'.loc := by
        rw [Local.landed, hjumps.trans hj]
        rfl
      rw [hland]
      have hnext : lop.width = 0 → Sweep m.contract.code 0 (m.loc.pc + 1) := fun h0 => by
        rw [Execute.width, h0] at hadv
        exact hadv
      have h := h.rstack
      rw [← hr1] at h
      cases lop with
      | jump => exact ⟨hcode1 ▸ hmove.2, fun p hp => h p (hmove.1 ▸ hp)⟩
      | jumpi =>
        refine ⟨?_, fun p hp => h p (hmove.1 ▸ hp)⟩
        rcases hmove.2 with hsweep | hpc'
        · exact hcode1 ▸ hsweep
        rw [hpc', hpc1, Nat.mod_eq_of_lt (by omega)]
        exact hnext rfl
      | jumpSub =>
        obtain ⟨hr, dest, hpc', hdest, hop, hsweep⟩ := hmove
        rw [hcode1] at hdest hop hsweep
        refine ⟨?_, ?_⟩
        · rw [hpc', Nat.mod_eq_of_lt (by omega)]
          refine hsweep.tail ⟨hdest, ?_⟩
          rw [hop]
          rfl
        rw [hr, hpc1, Nat.mod_eq_of_lt (by omega)]
        rintro p (_ | ⟨_, hp⟩)
        · exact hnext rfl
        · exact h p hp
      | returnSub =>
        obtain ⟨p, hr, hpc'⟩ := hmove
        refine ⟨?_, fun q hq => h q (by simp [hr, hq])⟩
        rw [hpc']
        exact h p (by simp [hr])
      | _ => cases hj
  | _ =>
    obtain ⟨hr, hpc'⟩ := hm1.stays (by simp [hx])
    rw [hx] at hseq
    exact hseq rfl hr (hpc'.trans (by rw [hpc1]; exact (Nat.mod_eq_of_lt (by omega)).symm))

theorem stepWith_aligned (hlen : m.contract.code.length ≤ 2 ^ 32)
    (h : Aligned m.contract.code m.loc) (hstep : stepWith env run m = .ok (.inl m')) :
    m'.contract.code = m.contract.code ∧ Aligned m'.contract.code m'.loc := by
  have hensures : Ensures (fun _ => True) (Sum.elim (fun m' : Machine =>
      m'.contract.code = m.contract.code ∧ Aligned m'.contract.code m'.loc) fun _ => True)
      (stepWith env run m) := by
    refine stepWith_ensures (fun _ _ _ => trivial) (fun _ _ _ _ _ _ _ _ _ => trivial) ?_
    rintro _ op o m1 ⟨_, _, rfl⟩ hf - hp
    refine (execute_framed env run o.execute m1).mono (fun s _ => ?_) fun r hr => ?_
    · cases s <;> trivial
    refine conclude_cases (fun _ _ _ => trivial) fun hhalts _ _ => ?_
    have hpc := hf.pc_lt fun h0 => by
      rw [hf.consistent.stop h0] at hhalts
      cases hhalts
    obtain ⟨gas, hgas⟩ := hr.contract
    have hcode : r.1.contract.code = m.contract.code := by
      rw [hgas]
      exact hp.flow.2.2
    have haligned := hr.aligned hf hpc hlen h hp
    exact ⟨hcode, hcode ▸ haligned⟩
  exact hensures.of_ok hstep

end Step

/-! ## Runs -/

/-- A step of a frame that goes on, whatever the calls in it return. -/
def Continues (env : Env) (m m' : Machine) : Prop :=
  ∃ run, stepWith env run m = .ok (.inl m')

/-- **The analysis marks the data of the pushes**, for every code, and **the program counter only
visits unmarked positions** or leaves the code, for a code whose positions have 32 bits. -/
theorem pc_at_instruction (env : Env) (c : Contract) (evm : Evm) :
    ∃ bits, codeBitmap c.code = .ok bits ∧ (∀ pos, Marked bits pos ↔ Skipped c.code 0 pos) ∧
      (c.code.length ≤ 2 ^ 32 → ∀ m,
        Relation.ReflTransGen (Continues env) { contract := c, evm } m →
        c.code.length ≤ m.loc.pc ∨ bits.codeSegment m.loc.pc = .ok true) := by
  obtain ⟨bits, hok, hbits, hmarked⟩ := codeBitmap_spec c.code
  refine ⟨bits, hok, hmarked, fun hlen m hm => ?_⟩
  have haligned : m.contract.code = c.code ∧ Aligned m.contract.code m.loc := by
    induction hm with
    | refl => exact ⟨rfl, .refl, by simp⟩
    | tail _ hstep ih =>
      obtain ⟨run, hstep⟩ := hstep
      obtain ⟨hcode, h⟩ := stepWith_aligned (ih.1 ▸ hlen) ih.2 hstep
      exact ⟨hcode.trans ih.1, h⟩
  refine or_iff_not_imp_left.2 fun hpc => ?_
  obtain ⟨isCode, hseg, hiff⟩ := codeSegment_spec (show m.loc.pc < 8 * bits.length by omega)
  rw [hseg, hiff.2]
  rw [hmarked, ← haligned.1]
  exact haligned.2.pc.not_skipped

/-! ## A subroutine that returns into data -/

/-- It reads the address of its last but one instruction from the gas that is left and jumps there.
The subroutine at 3 is then called from the last position and returns at once. -/
def subroutineCode (n : Nat) : Bytes :=
  [OpCode.CALLVALUE, OpCode.GAS, OpCode.JUMP, OpCode.BEGINSUB, OpCode.RETURNSUB, OpCode.PUSH1, 0]
    ++ (List.replicate n OpCode.JUMPDEST ++ [OpCode.JUMPSUB])

def subroutineState (code : Bytes) (steps pc gas : Nat) (stack : List Word) (rstack : List Nat) :
    Machine where
  loc := { pc, stack, rstack }
  contract := { callerAddress := 0, self := 1, code, gas, value := 3 }
  evm := { world := { account := fun _ => none } }
  steps := steps

def subroutineEnv : Env := Env.trivial ⟨0, true, true, true, true, true, true, true, true, true⟩

theorem length_subroutineCode (n : Nat) : (subroutineCode n).length = n + 8 := by
  simp [subroutineCode]

theorem subroutineCode_jumpdest {n k : Nat} (h : k < n) :
    (subroutineCode n).getD (k + 7) 0 = OpCode.JUMPDEST := by
  simp [subroutineCode, List.getElem?_append, h]

theorem subroutineCode_last (n : Nat) : (subroutineCode n).getD (n + 7) 0 = OpCode.JUMPSUB := by
  simp [subroutineCode]

theorem sweep_subroutineCode_start (n : Nat) {p : Nat} (h : p ≤ 5) :
    Sweep (subroutineCode n) 0 p := by
  induction p with
  | zero => exact .refl
  | succ p ih =>
    refine (ih (by omega)).tail ⟨by rw [length_subroutineCode]; omega, ?_⟩
    obtain rfl | rfl | rfl | rfl | rfl : p = 0 ∨ p = 1 ∨ p = 2 ∨ p = 3 ∨ p = 4 := by omega
    all_goals rfl

theorem sweep_subroutineCode {n k : Nat} (h : k ≤ n) : Sweep (subroutineCode n) 0 (k + 7) := by
  have hlen := length_subroutineCode n
  induction k with
  | zero => exact (sweep_subroutineCode_start n le_rfl).tail ⟨by omega, rfl⟩
  | succ k ih =>
    refine (ih (by omega)).tail ⟨by omega, ?_⟩
    rw [subroutineCode_jumpdest (by omega)]
    rfl

theorem continues_of {env : Env} {m m0 m1 m2 m' : Machine} {op : OpCode} {o : Operation}
    {res : Bytes} (hpoll : poll env m = (m0, false)) (hf : Fetched env m0 op o)
    (hprep : prepare env op o m0 = .ok m1)
    (hexec : execute env (fun _ _ _ _ => .error .fuel) o.execute m1 = .ok (m2, res))
    (hm' : conclude o m2 res = .inl m') : Continues env m m' := by
  refine ⟨fun _ _ _ _ => .error .fuel, ?_⟩
  have hdispatch : dispatch env (fun _ _ _ _ => .error .fuel) m0 = .ok (.inl m') := by
    unfold dispatch
    dsimp only
    rw [← hf.1, hf.2]
    exact bind_eq_ok.2 ⟨m1, hprep, bind_eq_ok.2 ⟨(m2, res), hexec, congrArg _ hm'⟩⟩
  unfold stepWith
  rw [hpoll]
  dsimp only
  rw [if_neg Bool.false_ne_true, hdispatch]

theorem subroutine_run {code : Bytes} (h0 : code.getD 0 0 = OpCode.CALLVALUE)
    (h1 : code.getD 1 0 = OpCode.GAS) (h2 : code.getD 2 0 = OpCode.JUMP)
    (h4 : code.getD 4 0 = OpCode.RETURNSUB) (hj : code.getD 4294967300 0 = OpCode.JUMPDEST)
    (hs : code.getD 4294967301 0 = OpCode.JUMPSUB)
    (hdest : ∀ gas,
      Contract.validDest ⟨0, 1, code, [], gas, 3⟩ OpCode.JUMPDEST 4294967300 = .ok true)
    (hsub : ∀ gas, Contract.validDest ⟨0, 1, code, [], gas, 3⟩ OpCode.BEGINSUB 3 = .ok true) :
    Relation.ReflTransGen (Continues subroutineEnv) (subroutineState code 0 0 4294967304 [] [])
      (subroutineState code 6 6 4294967276 [] []) := by
  refine .head (b := subroutineState code 1 1 4294967302 [3] [])
    (continues_of rfl ⟨h0.symm, rfl⟩ rfl rfl rfl) ?_
  refine .head (b := subroutineState code 2 2 4294967300 [4294967300, 3] [])
    (continues_of rfl ⟨h1.symm, rfl⟩ rfl rfl rfl) ?_
  refine .head (b := subroutineState code 3 4294967300 4294967292 [3] [])
    (continues_of rfl ⟨h2.symm, rfl⟩ rfl
      (bind_eq_ok.2 ⟨_, bind_eq_ok.2 ⟨_, rfl, bind_eq_ok.2 ⟨true, hdest _, rfl⟩⟩, rfl⟩) rfl) ?_
  refine .head (b := subroutineState code 4 4294967301 4294967291 [3] [])
    (continues_of rfl ⟨hj.symm, rfl⟩ rfl rfl rfl) ?_
  -- the return stack gets 4294967301 % 2 ^ 32
  have hcall : Continues subroutineEnv (subroutineState code 4 4294967301 4294967291 [3] [])
      (subroutineState code 5 4 4294967281 [] [5]) := by
    refine continues_of rfl ⟨hs.symm, rfl⟩ rfl (bind_eq_ok.2 ⟨_, bind_eq_ok.2 ⟨_, rfl,
      bind_eq_ok.2 ⟨_, rfl, bind_eq_ok.2 ⟨_, rfl, bind_eq_ok.2 ⟨true, hsub _, rfl⟩⟩⟩⟩, rfl⟩) ?_
    simp [conclude, localOp, operation, subroutineState, Machine.useGas, Machine.resize,
      Memory.resize, lowUint64, gasSlowStep]
  exact .head hcall (.single (continues_of rfl ⟨h4.symm, rfl⟩ rfl rfl rfl))

/-- A code of 2³² + 6 bytes whose subroutine returns to the data of the `PUSH1` at 5. -/
theorem pc_in_data : ∃ m bits, Relation.ReflTransGen (Continues subroutineEnv)
      (subroutineState (subroutineCode (2 ^ 32 - 2)) 0 0 4294967304 [] []) m ∧
    codeBitmap (subroutineCode (2 ^ 32 - 2)) = .ok bits ∧
    m.loc.pc < (subroutineCode (2 ^ 32 - 2)).length ∧ bits.codeSegment m.loc.pc = .ok false := by
  generalize hn : 2 ^ 32 - 2 = n
  have hlen := length_subroutineCode n
  have hvalid : ∀ gas op dest, dest < n + 8 → (subroutineCode n).getD dest 0 = op →
      Sweep (subroutineCode n) 0 dest →
      Contract.validDest ⟨0, 1, subroutineCode n, [], gas, 3⟩ op dest = .ok true := by
    intro gas op dest hdest hop hsweep
    obtain ⟨valid, hok, hiff⟩ := validDest_spec ⟨0, 1, subroutineCode n, [], gas, 3⟩ op dest
    rw [hok, hiff.2 ⟨hlen ▸ hdest, hop, hsweep⟩]
  have hjumpdest : (subroutineCode n).getD 4294967300 0 = OpCode.JUMPDEST := by
    simpa [← hn] using subroutineCode_jumpdest (show 4294967293 < n by omega)
  have hlast : (subroutineCode n).getD 4294967301 0 = OpCode.JUMPSUB := by
    simpa [← hn] using subroutineCode_last n
  obtain ⟨bits, hok, hbits, hmarked⟩ := codeBitmap_spec (subroutineCode n)
  obtain ⟨isCode, hseg, hiff⟩ := codeSegment_spec (show 6 < 8 * bits.length by omega)
  have hdata : Marked bits 6 :=
    (hmarked 6).2 ⟨5, sweep_subroutineCode_start n le_rfl, by omega, by decide, le_rfl⟩
  have hrun := subroutine_run rfl rfl rfl rfl hjumpdest hlast
    (fun gas => hvalid gas _ _ (by omega) hjumpdest
      (sweep_subroutineCode (show 4294967293 ≤ n by omega)))
    fun gas => hvalid gas _ _ (by omega) rfl (sweep_subroutineCode_start n (by decide))
  refine ⟨_, bits, hrun, hok, ?_, ?_⟩
  · show 6 < _
    omega
  · show bits.codeSegment 6 = _
    rw [hseg, Bool.eq_false_iff.2 fun h => hiff.1 h hdata]

end Virbicoin.Vm
