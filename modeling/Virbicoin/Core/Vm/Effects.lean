import Virbicoin.Core.Vm.Analysis
import Virbicoin.Core.Vm.Rules

/-!
# What the instructions do

An instruction that works on its frame fails, if at all, with an error of the virtual machine or
with a fault of the data structures of the frame (`Stop.Own`). It keeps the size of the memory, and
it moves the program counter as `LocalOp.Moves` says. The same holds for the instructions that write
to the state, and for these the lemmas say what they write.
-/

namespace Virbicoin.Vm

open Lib State Params

def Fault.own : Fault → Bool
  | .stack => true
  | .memory => true
  | .slice => true
  | .analysis => true
  | _ => false

def Stop.Own : Stop → Prop
  | .error _ => True
  | .abort (.fault f) => f.own = true
  | .abort .fuel => False

/-! ## Data structures -/

theorem pop_own (s : List Word) : Ensures Stop.Own (fun r => s = r.1 :: r.2) (pop s) := by
  cases s with
  | nil => exact .error rfl
  | cons x s => exact .ok rfl

theorem pop_then {α : Type} {Q : α → Prop} {f : Word × List Word → Except Stop α} {s : List Word}
    (h : ∀ r, Ensures Stop.Own Q (f r)) : Ensures Stop.Own Q (pop s >>= f) :=
  (pop_own s).bind fun r _ => h r

theorem back_own (s : List Word) (n : Nat) :
    Ensures Stop.Own (fun x => s[n]? = some x) (back s n) := by
  unfold back
  split
  · exact .ok ‹_›
  · exact .error rfl

theorem getPtr_own {mem : Memory} {offset size : Int} :
    Ensures Stop.Own (fun _ => True) (mem.getPtr offset size) := by
  refine .ite (fun _ => .ok trivial) fun _ => ?_
  refine .ite (fun _ => ?_) fun _ => .ok trivial
  exact .ite (fun _ => .ok trivial) fun _ => .error rfl

/-- The memory has the same length, and the fee paid for it is the same. -/
def Memory.SameSize (mem mem' : Memory) : Prop :=
  mem'.store.length = mem.store.length ∧ mem'.lastGasCost = mem.lastGasCost

theorem Memory.SameSize.refl (mem : Memory) : mem.SameSize mem := ⟨rfl, rfl⟩

theorem length_overwrite {b value : Bytes} {offset : Nat} (h : offset + value.length ≤ b.length) :
    (overwrite b offset value).length = b.length := by
  simp only [overwrite, List.length_append, List.length_take, List.length_drop]
  omega

theorem set_own {mem : Memory} {offset : Nat} {len : Word} {value : Bytes} :
    Ensures Stop.Own mem.SameSize (mem.set offset (lowUint64 len) value) := by
  have hlen : lowUint64 len < 2 ^ 64 := Nat.mod_lt _ (by decide)
  refine .ite (fun _ => ?_) fun _ => .ok (.refl mem)
  refine .ite (fun _ => .error rfl) fun h => .ok ⟨length_overwrite ?_, rfl⟩
  rw [List.length_take]
  omega

theorem set32_own (mem : Memory) (offset : Nat) (val : Word) :
    Ensures Stop.Own mem.SameSize (mem.set32 offset val) := by
  refine .ite (fun _ => .error rfl) fun h => .ok ⟨length_overwrite ?_, rfl⟩
  have : (bytes32 val).length = 32 := bigEndian_length _ _
  omega

theorem setByte_own (mem : Memory) (offset : Nat) (val : BitVec 8) :
    Ensures Stop.Own mem.SameSize (mem.setByte offset val) :=
  Ensures.ite (fun _ => Ensures.ok ⟨List.length_set, rfl⟩) fun _ => Ensures.error rfl

theorem getData_own (data : Bytes) (start size : Nat) :
    Ensures Stop.Own (fun _ => True) (getData data start size) := by
  exact .ite (fun _ => .ok trivial) fun _ => .error rfl

/-! ## Instructions on a frame -/

/-- What an instruction does to the program counter and the return stack. -/
def LocalOp.Moves (op : LocalOp) (c : Contract) (l l' : Local) : Prop :=
  match op with
  | .jump => l'.rstack = l.rstack ∧ Sweep c.code 0 l'.pc
  | .jumpi => l'.rstack = l.rstack ∧ (Sweep c.code 0 l'.pc ∨ l'.pc = (l.pc + 1) % 2 ^ 64)
  | .jumpSub => l'.rstack = l.pc % 2 ^ 32 :: l.rstack ∧ ∃ dest, l'.pc = (dest + 1) % 2 ^ 64 ∧
    dest < c.code.length ∧ c.code.getD dest 0 = 0x5c ∧ Sweep c.code 0 dest
  | .returnSub => ∃ p, l.rstack = p :: l'.rstack ∧ l'.pc = p + 1
  | .push1 => l'.rstack = l.rstack ∧ l'.pc = (l.pc + 1) % 2 ^ 64
  | .push size => l'.rstack = l.rstack ∧ l'.pc = (l.pc + size) % 2 ^ 64
  | _ => l'.rstack = l.rstack ∧ l'.pc = l.pc

section Locals

variable {env : Env} {c : Contract} {evm : Evm} {l : Local}

def Stays (l : Local) (r : Local × Bytes) : Prop :=
  l.memory.SameSize r.1.memory ∧ r.1.rstack = l.rstack ∧ r.1.pc = l.pc

theorem stays (s : List Word) (b : Bytes) : Stays l ({ l with stack := s }, b) :=
    ⟨.refl _, rfl, rfl⟩

theorem failIf_own {p : Prop} [Decidable p] (e : VmError) :
    Ensures Stop.Own (fun _ => True) (failIf p (.error e)) :=
  Ensures.failIf (fun _ => trivial) fun _ => trivial

theorem copyData_own {data : Bytes} : Ensures Stop.Own (Stays l) (copyData data l) :=
  pop_then fun _ => pop_then fun _ => pop_then fun _ =>
    (getData_own _ _ _).bind fun _ _ => set_own.bind fun _ h => .ok ⟨h, rfl, rfl⟩

variable (env c) in
theorem opReturnDataCopy_own : Ensures Stop.Own (Stays l) (opReturnDataCopy env c evm l) := by
  refine pop_then fun _ => pop_then fun _ => pop_then fun _ => ?_
  refine (failIf_own _).bind fun _ _ => (failIf_own _).bind fun _ _ => ?_
  refine .failIf_bind (fun _ => rfl) fun _ => ?_
  exact set_own.bind fun _ h => .ok ⟨h, rfl, rfl⟩

theorem jumpTo_ensures {E : Stop → Prop} {Q : Local × Bytes → Prop} {pos : Word} {l' : Local}
    (herr : E (.error .invalidJump)) (h : Sweep c.code 0 (lowUint64 pos) → Q (l', [])) :
    Ensures E Q (c.validJumpdest pos >>= fun valid =>
      failIf (!valid) (Stop.error .invalidJump) >>= fun _ =>
        (Except.ok (l', []) : Except Stop (Local × Bytes))) := by
  refine (validJumpdest_ensures c pos).bind fun valid hvalid => ?_
  exact .failIf_bind (fun _ => herr) fun hv => .ok (h (hvalid (by simpa using hv)))

variable (env evm) in
theorem opJumpSub_own :
    Ensures Stop.Own (fun r => l.memory.SameSize r.1.memory ∧ LocalOp.jumpSub.Moves c l r.1)
      (opJumpSub env c evm l) := by
  refine (failIf_own _).bind fun _ _ => (pop_own _).bind fun r _ => ?_
  refine (failIf_own _).bind fun _ _ => (validJumpSubdest_ensures _ _).bind fun valid hvalid => ?_
  exact .failIf_bind (fun _ => trivial) fun hv =>
    Ensures.ok ⟨.refl _, rfl, _, rfl, hvalid (by simpa using hv)⟩

theorem LocalOp.exec_own (op : LocalOp) :
    Ensures Stop.Own (fun r => l.memory.SameSize r.1.memory ∧ op.Moves c l r.1)
      (op.exec env c evm l) := by
  cases op with
  | nullary f => exact .ok (stays _ _)
  | unary f => exact pop_then fun _ => .ok (stays _ _)
  | binary f => exact pop_then fun _ => pop_then fun _ => .ok (stays _ _)
  | ternary f =>
    exact pop_then fun _ => pop_then fun _ => pop_then fun _ =>
      Ensures.ok (stays _ _)
  | callDataLoad =>
    refine pop_then fun _ => .ite (fun _ => ?_) fun _ => .ok (stays _ _)
    exact (getData_own _ _ _).bind fun _ _ => .ok (stays _ _)
  | callDataCopy | codeCopy => exact copyData_own
  | extCodeCopy => exact pop_then fun _ => copyData_own
  | returnDataCopy => exact opReturnDataCopy_own env c
  | pop => exact pop_then fun _ => .ok (stays _ _)
  | mload => exact pop_then fun _ => getPtr_own.bind fun _ _ => .ok (stays _ _)
  | mstore =>
    exact pop_then fun _ => pop_then fun _ => (set32_own _ _ _).bind fun _ h => .ok ⟨h, rfl, rfl⟩
  | mstore8 =>
    exact pop_then fun _ => pop_then fun _ => (setByte_own _ _ _).bind fun _ h => .ok ⟨h, rfl, rfl⟩
  | jump => exact pop_then fun _ => jumpTo_ensures trivial fun h => ⟨.refl _, rfl, h⟩
  | jumpi =>
    refine pop_then fun _ => pop_then fun _ => ?_
    exact .ite (fun _ => jumpTo_ensures trivial fun h => ⟨.refl _, rfl, .inl h⟩)
      fun _ => .ok ⟨.refl _, rfl, .inr rfl⟩
  | jumpdest => exact .ok (stays _ _)
  | beginSub => exact .error trivial
  | jumpSub => exact opJumpSub_own env evm
  | returnSub =>
    rw [exec, opReturnSub]
    split
    · exact .error trivial
    · exact .ok ⟨.refl _, _, ‹_›, rfl⟩
  | push1 => exact .ok ⟨.refl _, rfl, rfl⟩
  | push size => exact .ite (fun _ => .ok ⟨.refl _, rfl, rfl⟩) fun _ => .error rfl
  | dup size =>
    refine .bind (Q := fun _ => True) ?_ fun _ _ => .ok (stays _ _)
    exact (back_own _ _).bind fun _ _ => .ok trivial
  | swap size =>
    refine .bind (Q := fun _ => True) ?_ fun _ _ => .ok (stays _ _)
    exact (back_own _ _).bind fun _ _ => (back_own _ _).bind fun _ _ => .ok trivial
  | ret => exact pop_then fun _ => pop_then fun _ => getPtr_own.bind fun _ _ => .ok (stays _ _)
  | stop => exact .ok (stays _ _)

end Locals

/-! ## Instructions on the state -/

section Writes

variable {env : Env} {m : Machine}

theorem opSha3_own : Ensures Stop.Own (fun r => ∃ s world, (world = m.evm.world ∨
          ∃ hash data, world = m.evm.world.addPreimage hash data) ∧
        r.1 = { m with loc := { m.loc with stack := s }, evm := { m.evm with world } })
      (opSha3 env m) := by
  refine pop_then fun _ => pop_then fun _ => getPtr_own.bind fun data _ => .ok ⟨_, _, ?_, rfl⟩
  split
  · exact .inr ⟨_, _, rfl⟩
  · exact .inl rfl

theorem opSstore_own : Ensures Stop.Own (fun r => ∃ slot value s, m.loc.stack = slot :: value :: s ∧
        r.1 = { m with
          loc := { m.loc with stack := s }
          evm := { m.evm with
            world := m.evm.world.setState env.keccak m.contract.self slot value } })
      (opSstore env m) := by
  refine (pop_own _).bind fun r1 h1 => (pop_own _).bind fun r2 h2 => ?_
  refine .ok ⟨r1.1, r2.1, r2.2, ?_, rfl⟩
  rw [h1, h2]

theorem popTopics_own (n : Nat) (s : List Word) :
    Ensures Stop.Own (fun _ => True) (popTopics n s) := by
  induction n generalizing s with
  | zero => exact .ok trivial
  | succ n ih => exact pop_then fun _ => (ih _).bind fun _ _ => .ok trivial

theorem makeLog_own (size : Nat) : Ensures Stop.Own (fun r => ∃ s log, r.1 = { m with
        loc := { m.loc with stack := s }
        evm := { m.evm with world := m.evm.world.addLog log } })
      (makeLog size env m) :=
  pop_then fun _ => pop_then fun _ => (popTopics_own _ _).bind fun _ _ =>
    getPtr_own.bind fun _ _ => .ok ⟨_, _, rfl⟩

def suicideWorld (env : Env) (self beneficiary : Address) (world : World) : World :=
  ((world.addBalance env.keccak beneficiary (world.getBalance self)).suicide self).1

theorem opSuicide_own : Ensures Stop.Own (fun r => ∃ s beneficiary, r.1 = { m with
        loc := { m.loc with stack := s }
        evm := { m.evm with
          world := suicideWorld env m.contract.self beneficiary m.evm.world
          destroyed := if beneficiary = m.contract.self then
              m.evm.destroyed + m.evm.world.getBalance m.contract.self
            else m.evm.destroyed } })
      (opSuicide env m) :=
  (pop_own _).bind fun r _ => .ok ⟨_, toAddress r.1, rfl⟩

end Writes

/-! ## Calls -/

theorem returning_ensures {α : Type} {E : Abort → Prop} {Q : α → Prop} {x : Except Abort α}
    (h : Ensures E Q x) : Ensures (Stop.lift E) Q (returning x) := by
  cases x with
  | ok a | error a => exact h

def CallArgs.On (a : CallArgs) (hasValue : Bool) (s rest : List Word) : Prop :=
  ∃ gas, match hasValue with
    | true => s = gas :: a.addr :: a.value :: a.inOffset :: a.inSize :: a.retOffset :: a.retSize ::
        rest
    | false => a.value = 0 ∧
        s = gas :: a.addr :: a.inOffset :: a.inSize :: a.retOffset :: a.retSize :: rest

theorem CallArgs.On.value_eq {a : CallArgs} {s rest : List Word} (h : a.On true s rest) :
    s[2]? = some a.value := by
  obtain ⟨gas, rfl⟩ := h
  rfl

theorem popCallArgs_own (hasValue : Bool) (s : List Word) :
    Ensures Stop.Own (fun r => r.1.On hasValue s r.2) (popCallArgs hasValue s) := by
  refine (pop_own _).bind fun r1 h1 => (pop_own _).bind fun r2 h2 => ?_
  refine .bind (Q := fun r3 : Word × List Word =>
      if hasValue then r2.2 = r3.1 :: r3.2 else r3.1 = 0 ∧ r3.2 = r2.2) ?_ ?_
  · cases hasValue with
    | false => exact .ok ⟨rfl, rfl⟩
    | true => exact pop_own _
  intro r3 h3
  refine (pop_own _).bind fun r4 h4 => (pop_own _).bind fun r5 h5 => (pop_own _).bind
    fun r6 h6 => (pop_own _).bind fun r7 h7 => .ok ⟨r1.1, ?_⟩
  cases hasValue with
  | false =>
    obtain ⟨hvalue, hrest⟩ := h3
    refine ⟨hvalue, ?_⟩
    rw [h1, h2, ← hrest, h4, h5, h6, h7]
  | true => rw [h1, h2, h3, h4, h5, h6, h7]

theorem Returned.read_own (ret : Returned) (a : CallArgs) (memory : Memory) :
    Ensures Stop.Own (fun _ => True) (ret.read a memory) := by
  cases ret with
  | bytes b => exact .ok trivial
  | input => exact getPtr_own

theorem writeOutput_own (r : CallResult) (a : CallArgs) (memory : Memory) :
    Ensures Stop.Own memory.SameSize (r.writeOutput a memory) :=
  (r.ret.read_own a memory).bind fun _ _ =>
    Ensures.ite (fun _ => set_own) fun _ => .ok (.refl _)

theorem creation_ensures {env : Env} {run : RunFn} {m : Machine} {E : Stop → Prop}
    {Q : Machine × Bytes → Prop} (hown : ∀ s, s.Own → E s) {x : Execute}
    (hx : x = .create ∨ x = .create2)
    (h : ∀ gas ≤ m.contract.gas, ∀ input value address s (stackvalue : CreateResult → Word),
      Ensures E Q
      (returning (createAt env run m.contract.self input gas value address (m.useGas gas).evm) >>=
        fun r => finishOpCreate (m.useGas gas) s r (stackvalue r))) :
    Ensures E Q (execute env run x m) := by
  have hpop := fun s => (pop_own s).weaken hown
  rcases hx with rfl | rfl
  · refine (hpop _).bind fun _ _ => (hpop _).bind fun _ _ => (hpop _).bind fun _ _ => ?_
    refine (getPtr_own.weaken hown).bind fun input _ => h _ ?_ _ _ _ _ _
    split
    · exact Nat.sub_le _ _
    · exact le_rfl
  refine (hpop _).bind fun _ _ => (hpop _).bind fun _ _ => (hpop _).bind fun _ _ => ?_
  refine (hpop _).bind fun _ _ => (getPtr_own.weaken hown).bind fun input _ => ?_
  exact h _ (Nat.sub_le _ _) _ _ _ _ _

/-! ## Frames -/

/-- What an instruction does to its frame, besides the stack. -/
structure Framed (x : Execute) (m m' : Machine) : Prop where
  memory : m.loc.memory.SameSize m'.loc.memory
  contract : ∃ gas, m'.contract = { m.contract with gas }
  moves : ∀ op, x = .loc op → op.Moves m.contract m.loc m'.loc
  stays : (∀ op, x ≠ .loc op) → m'.loc.rstack = m.loc.rstack ∧ m'.loc.pc = m.loc.pc

theorem Framed.of_stack {x : Execute} (hx : ∀ op, x ≠ .loc op) {m m' : Machine} {s : List Word}
    (hloc : m'.loc = { m.loc with stack := s })
      (hc : ∃ gas, m'.contract = { m.contract with gas }) :
    Framed x m m' where
  memory := by
    rw [hloc]
    exact .refl _
  contract := hc
  moves op h := absurd h (hx op)
  stays _ := by
    rw [hloc]
    exact ⟨rfl, rfl⟩

theorem execute_framed (env : Env) (run : RunFn) (x : Execute) (m : Machine) :
    Ensures (fun _ => True) (fun r => Framed x m r.1) (execute env run x m) := by
  cases x with
  | loc op =>
    refine (op.exec_own.weaken fun _ _ => trivial).bind fun r h => Ensures.ok ?_
    exact ⟨h.1, ⟨_, rfl⟩, fun _ hop => Execute.loc.inj hop ▸ h.2, fun hne => absurd rfl (hne op)⟩
  | sha3 =>
    refine opSha3_own.mono (fun _ _ => trivial) ?_
    rintro ⟨_, _⟩ ⟨s, world, -, rfl⟩
    exact .of_stack (by simp) rfl ⟨_, rfl⟩
  | sstore =>
    refine opSstore_own.mono (fun _ _ => trivial) ?_
    rintro ⟨_, _⟩ ⟨_, _, s, -, rfl⟩
    exact .of_stack (by simp) rfl ⟨_, rfl⟩
  | log size =>
    refine (makeLog_own size).mono (fun _ _ => trivial) ?_
    rintro ⟨_, _⟩ ⟨s, _, rfl⟩
    exact .of_stack (by simp) rfl ⟨_, rfl⟩
  | suicide =>
    refine opSuicide_own.mono (fun _ _ => trivial) ?_
    rintro ⟨_, _⟩ ⟨s, _, rfl⟩
    exact .of_stack (by simp) rfl ⟨_, rfl⟩
  | create | create2 =>
    refine creation_ensures (fun _ _ => trivial) (by simp) fun gas _ _ _ _ s _ => ?_
    refine Ensures.any.bind fun r _ => Ensures.any.bind fun gas' _ => Ensures.ok ?_
    exact .of_stack (by simp) rfl ⟨gas', rfl⟩
  | call kind =>
    refine Ensures.any.bind fun r _ => Ensures.any.bind fun _ _ => Ensures.any.bind fun _ _ => ?_
    refine Ensures.any.bind fun res _ => ?_
    refine ((writeOutput_own res r.1 _).weaken fun _ _ => trivial).bind fun memory hmem => ?_
    refine Ensures.any.bind fun _ _ => Ensures.any.bind fun gas _ => Ensures.ok ?_
    exact ⟨hmem, ⟨gas, rfl⟩, nofun, fun _ => ⟨rfl, rfl⟩⟩

end Virbicoin.Vm
