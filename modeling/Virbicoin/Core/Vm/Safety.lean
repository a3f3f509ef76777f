import Virbicoin.Core.State.Observe
import Virbicoin.Core.Vm.Ranges

/-!
# The interpreter does not fault on its own data structures

Three tables have to agree with each instruction: the stack bounds, the memory size functions and
the memory fee (`Consistent`). With enough items on the stack and a memory that covers its ranges
(`requiredMemory_covered`) an instruction fails with an error of the virtual machine at most, and
leaves as many items as the table says.

Lengths of slices are below `2 ^ 63`, as everywhere in the program. For the code of accounts this is
an invariant of the execution (`CodeFits`), since the code of a new contract comes out of the memory
of a frame.
-/

namespace Virbicoin.Vm

open Lib State Params

def intLimit : Nat := 2 ^ 63

/-! ## Stack and data -/

theorem pop_bind {α : Type} {E : Stop → Prop} {Q : α → Prop} {s : List Word} {n : Nat}
    {f : Word × List Word → Except Stop α} (h : n + 1 ≤ s.length)
    (hf : ∀ x rest, s = x :: rest → n ≤ rest.length → Ensures E Q (f (x, rest))) :
    Ensures E Q (pop s >>= f) := by
  cases s with
  | nil => exact absurd h n.not_succ_le_zero
  | cons x s => exact hf x s rfl (Nat.le_of_succ_le_succ h)

theorem dup_regular {s : List Word} {n : Nat} (hn : 0 < n) (h : n ≤ s.length) :
    Ensures Stop.Regular (fun s' => s'.length = s.length + 1) (dup s n) :=
  (back_ensures (by omega)).bind fun _ _ => .ok rfl

theorem swap_regular {s : List Word} {n : Nat} (h : n < s.length) :
    Ensures Stop.Regular (fun s' => s'.length = s.length) (swap s (n + 1)) := by
  refine (back_ensures (by omega)).bind fun _ _ => (back_ensures (by omega)).bind fun _ _ => ?_
  refine .ok ?_
  simp only [List.length_set]

section Memory

variable {size : Nat} {off : Word} {mem : Memory}

theorem getData_regular {data : Bytes} {start : Nat} (hdata : data.length < intLimit)
    (hsize : size ≤ maxMemory) :
    Ensures Stop.Regular (fun _ => True) (getData data start size) := by
  unfold intLimit at hdata
  unfold maxMemory at hsize
  refine .ite (fun _ => .ok trivial) fun h => absurd ?_ h
  have hstart : (if start > data.length then data.length else start) ≤ data.length := by
    split <;> omega
  generalize (if start > data.length then data.length else start) = start' at hstart ⊢
  split <;> omega

variable (hmax : size ≤ maxMemory)
include hmax

theorem Covers.lowUint64_le {len : Word} (h : Covers size off len) : lowUint64 len ≤ maxMemory := by
  rcases h with rfl | h
  · exact Nat.zero_le _
  · exact (Nat.mod_le _ _).trans (by omega)

variable (hstore : size ≤ mem.store.length)
include hstore

theorem set32_regular (val : Word) (h : off.toNat + 32 ≤ size) :
    Ensures Stop.Regular (fun _ => True) (mem.set32 (lowUint64 off) val) := by
  unfold maxMemory at hmax
  rw [lowUint64_of_lt (by omega)]
  refine .ite (fun h' => absurd h' ?_) fun _ => .ok trivial
  omega

theorem setByte_regular (val : BitVec 8) (h : off.toNat + 1 ≤ size) :
    Ensures Stop.Regular (fun _ => True) (mem.setByte (lowUint64 off) val) := by
  unfold maxMemory at hmax
  rw [lowUint64_of_lt (by omega)]
  exact .ite (fun _ => .ok trivial) fun h' => absurd (by omega) h'

theorem mload_regular (h : off.toNat + 32 ≤ size) :
    Ensures Stop.Regular (fun _ => True) (mem.getPtr (int64 (lowUint64 off)) 32) := by
  unfold maxMemory at hmax
  rw [lowUint64_of_lt (by omega), int64_of_lt (by omega)]
  refine .ite (fun _ => .ok trivial) fun _ => ?_
  refine .ite (fun _ => ?_) fun _ => .ok trivial
  exact .ite (fun _ => .ok trivial) fun h' => absurd (by omega) h'

theorem slice_regular {len : Word} (h : Covers size off len) :
    Ensures Stop.Regular (fun b => b.length ≤ maxMemory)
      (mem.getPtr (int64 (lowUint64 off)) (int64 (lowUint64 len))) := by
  rw [getPtr_covered h hmax hstore]
  refine .ok ?_
  rw [length_slice h hstore]
  rcases h with rfl | h
  · exact Nat.zero_le _
  · omega

theorem set_regular {len : Word} (value : Bytes) (h : Covers size off len) :
    Ensures Stop.Regular (fun _ => True) (mem.set (lowUint64 off) (lowUint64 len) value) := by
  rw [set_covered h hmax hstore]
  exact .ok trivial

end Memory

/-! ## Instructions on a frame -/

def CodeFits (w : World) : Prop := ∀ addr, ((w.getCode addr).getD []).length < intLimit

structure Ready (op : LocalOp) (c : Contract) (w : World) (l : Local) : Prop where
  deep : op.pops ≤ l.stack.length
  memory : ∀ f ∈ op.memory, ∃ size, size ≤ maxMemory ∧ size ≤ l.memory.store.length ∧
    f.Covered l.stack size
  code : c.code.length < intLimit
  input : c.input.length < intLimit
  world : CodeFits w
  dup : ∀ size, op = .dup size → 0 < size
  push : ∀ size, op = .push size → l.pc < c.code.length

/-- What an instruction leaves: the stack as the table says, and a result that comes out of memory.
-/
def Leftover (pops pushes : Nat) (l : Local) (r : Local × Bytes) : Prop :=
  r.1.stack.length + pops = l.stack.length + pushes ∧ r.2.length ≤ maxMemory

section Locals

variable {env : Env} {c : Contract} {evm : Evm} {l : Local}

theorem Leftover.nil {pops pushes : Nat} {l' : Local}
    (h : l'.stack.length + pops = l.stack.length + pushes) : Leftover pops pushes l (l', []) :=
  ⟨h, Nat.zero_le _⟩

theorem failIf_regular {p : Prop} [Decidable p] (e : VmError) :
    Ensures Stop.Regular (fun _ => True) (failIf p (.error e)) :=
  Ensures.failIf (fun _ => Stop.regular) fun _ => trivial

variable {size : Nat}

def Room (f : MemorySizeFunc) (l : Local) : Prop :=
  ∃ size, size ≤ maxMemory ∧ size ≤ l.memory.store.length ∧ f.Covered l.stack size

theorem copyData_regular {data : Bytes} (hdata : data.length < intLimit)
    (hdeep : 3 ≤ l.stack.length) (hroom : Room (.range 0 2) l) :
    Ensures Stop.Regular (Leftover 3 0 l) (copyData data l) := by
  obtain ⟨size, hmax, hstore, hcov⟩ := hroom
  refine pop_bind hdeep fun memOffset _ hstack hn => pop_bind hn fun offset _ h2 hn => ?_
  refine pop_bind hn fun length s h3 _ => ?_
  subst h2 h3
  rw [hstack] at hcov
  have hrange := hcov _ _ rfl rfl
  refine (getData_regular hdata (hrange.lowUint64_le hmax)).bind fun _ _ => ?_
  refine (set_regular hmax hstore _ hrange).bind fun _ _ => .ok (.nil ?_)
  rw [hstack]
  rfl

variable (env c evm) in
theorem opReturnDataCopy_regular (hdeep : 3 ≤ l.stack.length) (hroom : Room (.range 0 2) l) :
    Ensures Stop.Regular (Leftover 3 0 l) (opReturnDataCopy env c evm l) := by
  obtain ⟨size, hmax, hstore, hcov⟩ := hroom
  refine pop_bind hdeep fun memOffset _ hstack hn => pop_bind hn fun offset _ h2 hn => ?_
  refine pop_bind hn fun length s h3 _ => ?_
  subst h2 h3
  rw [hstack] at hcov
  have hrange := hcov _ _ rfl rfl
  refine Ensures.failIf_bind (fun _ => Stop.regular) fun hoff => ?_
  refine Ensures.failIf_bind (fun _ => Stop.regular) fun hend => ?_
  have hoff := isUint64_iff.1 (by simpa using hoff)
  have hend := isUint64_iff.1 (by simpa using (not_or.1 hend).1)
  refine .failIf_bind (fun h => absurd h ?_) fun _ => ?_
  · -- the end of the range is not below its start
    have hlen : length.toNat ≤ maxMemory := by
      rcases hrange with h | h
      · rw [h]
        exact Nat.zero_le _
      · omega
    unfold maxMemory at hlen
    have hsum : (offset + length).toNat = offset.toNat + length.toNat := by
      exact Nat.mod_eq_of_lt (by omega)
    rw [lowUint64_of_lt hend, lowUint64_of_lt hoff]
    omega
  refine (set_regular hmax hstore _ hrange).bind fun _ _ => .ok (.nil ?_)
  rw [hstack]
  rfl

variable (env evm) in
theorem makePush_regular (hcode : c.code.length < intLimit) (hpc : l.pc < c.code.length) :
    Ensures Stop.Regular (Leftover 0 1 l) (makePush size size env c evm l) := by
  unfold intLimit at hcode
  have hnext : int64 ((l.pc + 1) % 2 ^ 64) = (l.pc : Int) + 1 := by
    rw [Nat.mod_eq_of_lt (by omega), int64_of_lt (by omega)]
    rfl
  refine .ite (fun _ => .ok (.nil rfl)) fun h => absurd ?_ h
  split <;> split <;> omega

variable (env c evm) in
theorem opReturn_regular (hdeep : 2 ≤ l.stack.length) (hroom : Room (.range 0 1) l) :
    Ensures Stop.Regular (Leftover 2 0 l) (opReturn env c evm l) := by
  obtain ⟨size, hmax, hstore, hcov⟩ := hroom
  refine pop_bind hdeep fun offset _ hstack hn => pop_bind hn fun size s h2 _ => ?_
  subst h2
  rw [hstack] at hcov
  refine (slice_regular hmax hstore (hcov _ _ rfl rfl)).bind fun ret hret => .ok ⟨?_, hret⟩
  rw [hstack]
  rfl

theorem LocalOp.exec_regular {op : LocalOp} (h : Ready op c evm.world l) :
    Ensures Stop.Regular (Leftover op.pops op.pushes l) (op.exec env c evm l) := by
  obtain ⟨hdeep, hmem, hcode, hinput, hworld, hdup, hpush⟩ := h
  cases op with
  | nullary f => exact .ok (.nil rfl)
  | unary f =>
    refine pop_bind hdeep fun x s hstack _ => .ok (.nil ?_)
    rw [hstack]
    rfl
  | binary f =>
    refine pop_bind hdeep fun x _ h1 hn => pop_bind hn fun y s h2 _ => .ok (.nil ?_)
    rw [h1, h2]
    rfl
  | ternary f =>
    refine pop_bind hdeep fun x _ h1 hn => pop_bind hn fun y _ h2 hn => ?_
    refine pop_bind hn fun z s h3 _ => .ok (.nil ?_)
    rw [h1, h2, h3]
    rfl
  | callDataLoad =>
    refine pop_bind hdeep fun offset s hstack _ => ?_
    have hlen : ∀ x : Word, (x :: s).length + 1 = l.stack.length + 1 := by
      intro x
      rw [hstack]
      rfl
    refine .ite (fun _ => ?_) fun _ => .ok (.nil (hlen _))
    exact (getData_regular hinput (by decide)).bind fun _ _ => .ok (.nil (hlen _))
  | callDataCopy => exact copyData_regular hinput hdeep (hmem _ rfl)
  | codeCopy => exact copyData_regular hcode hdeep (hmem _ rfl)
  | extCodeCopy =>
    obtain ⟨size, hmax, hstore, hcov⟩ := hmem _ rfl
    refine pop_bind hdeep fun addr s hstack hn => ?_
    rw [hstack] at hcov
    refine (copyData_regular (l := { l with stack := s }) (hworld _) hn
      ⟨size, hmax, hstore, hcov⟩).imp fun r hr => ⟨?_, hr.2⟩
    have hlen : r.1.stack.length + 3 = s.length + 0 := hr.1
    rw [hstack]
    show r.1.stack.length + 4 = s.length + 1 + 0
    omega
  | returnDataCopy => exact opReturnDataCopy_regular env c evm hdeep (hmem _ rfl)
  | pop =>
    refine pop_bind hdeep fun x s hstack _ => .ok (.nil ?_)
    rw [hstack]
    rfl
  | mload =>
    obtain ⟨size, hmax, hstore, hcov⟩ := hmem _ rfl
    refine pop_bind hdeep fun offset s hstack _ => ?_
    rw [hstack] at hcov
    refine (mload_regular hmax hstore (hcov _ rfl)).bind fun _ _ => .ok (.nil ?_)
    rw [hstack]
    rfl
  | mstore =>
    obtain ⟨size, hmax, hstore, hcov⟩ := hmem _ rfl
    refine pop_bind hdeep fun mStart _ hstack hn => pop_bind hn fun val s h2 _ => ?_
    subst h2
    rw [hstack] at hcov
    refine (set32_regular hmax hstore _ (hcov _ rfl)).bind fun _ _ => .ok (.nil ?_)
    rw [hstack]
    rfl
  | mstore8 =>
    obtain ⟨size, hmax, hstore, hcov⟩ := hmem _ rfl
    refine pop_bind hdeep fun mStart _ hstack hn => pop_bind hn fun val s h2 _ => ?_
    subst h2
    rw [hstack] at hcov
    refine (setByte_regular hmax hstore _ (hcov _ rfl)).bind fun _ _ => .ok (.nil ?_)
    rw [hstack]
    rfl
  | jump =>
    refine pop_bind hdeep fun pos s hstack _ =>
      jumpTo_ensures Stop.regular fun _ => .nil ?_
    rw [hstack]
    rfl
  | jumpi =>
    refine pop_bind hdeep fun pos _ h1 hn => pop_bind hn fun cond s h2 _ => ?_
    have hlen : s.length + 2 = l.stack.length + 0 := by
      rw [h1, h2]
      rfl
    exact Ensures.ite (fun _ => jumpTo_ensures Stop.regular fun _ => .nil hlen)
      fun _ => .ok (.nil hlen)
  | jumpdest => exact .ok (.nil rfl)
  | beginSub => exact Ensures.error Stop.regular
  | jumpSub =>
    refine (failIf_regular _).bind fun _ _ => pop_bind hdeep fun pos s hstack _ => ?_
    refine (failIf_regular _).bind fun _ _ => (validJumpSubdest_ensures _ _).bind fun _ _ => ?_
    refine (failIf_regular _).bind fun _ _ => .ok (.nil ?_)
    rw [hstack]
    rfl
  | returnSub =>
    rw [exec, opReturnSub]
    split
    · exact Ensures.error Stop.regular
    · exact .ok (.nil rfl)
  | push1 => exact .ok (.nil rfl)
  | push size => exact makePush_regular env evm hcode (hpush size rfl)
  | dup size =>
    refine (dup_regular (hdup size rfl) hdeep).bind fun s' hs' => .ok (.nil ?_)
    show s'.length + size = l.stack.length + (size + 1)
    omega
  | swap size =>
    refine (swap_regular hdeep).bind fun s' hs' => .ok (.nil ?_)
    show s'.length + (size + 1) = l.stack.length + (size + 1)
    omega
  | ret => exact opReturn_regular env c evm hdeep (hmem _ rfl)
  | stop => exact .ok (.nil rfl)

end Locals

/-! ## The code of accounts -/

namespace CodeFits

variable {w w' : World} {keccak : Bytes → Hash} {addr : Address}

variable (h : CodeFits w)
include h

theorem congr (heq : w'.account = w.account) : CodeFits w' := by
  intro b
  have : w'.getCode b = w.getCode b := by
    unfold World.getCode World.getStateObject
    rw [heq]
  rw [this]
  exact h b

theorem set {a : Acct} (hdel : a.deleted = false) (hcode : (a.code.getD []).length < intLimit) :
    CodeFits (w.set addr a) := by
  intro b
  rw [World.getCode_set hdel]
  split
  · exact hcode
  · exact h b

theorem update {a : Acct} (hdel : a.deleted = false) (hcode : a.code = w.getCode addr) :
    CodeFits (w.set addr a) :=
  h.set hdel (by rw [hcode]; exact h addr)

theorem addBalance (addr : Address) (amount : Int) : CodeFits (w.addBalance keccak addr amount) :=
  h.update World.getOrNew_deleted World.getOrNew_code

theorem subBalance (addr : Address) (amount : Int) : CodeFits (w.subBalance keccak addr amount) :=
  h.update World.getOrNew_deleted World.getOrNew_code

theorem setNonce (addr : Address) (nonce : Nat) : CodeFits (w.setNonce keccak addr nonce) :=
  h.update World.getOrNew_deleted World.getOrNew_code

theorem setState (addr : Address) (key value : Hash) :
    CodeFits (w.setState keccak addr key value) :=
  h.update World.getOrNew_deleted World.getOrNew_code

theorem setCode {code : Option Bytes} (hcode : (code.getD []).length < intLimit) :
    CodeFits (w.setCode keccak addr code) :=
  h.set World.getOrNew_deleted hcode

theorem createAccount (addr : Address) : CodeFits (w.createAccount keccak addr) :=
  h.set rfl (by decide : 0 < intLimit)

theorem suicide (addr : Address) : CodeFits (w.suicide addr).1 := by
  unfold World.suicide
  split
  · exact h
  rename_i a ha
  have hdel := World.not_deleted_of_getStateObject ha
  refine h.update hdel ?_
  unfold World.getCode
  rw [ha]
  rfl

theorem transfer (sender recipient : Address) (amount : Int) :
    CodeFits (transfer keccak w sender recipient amount) :=
  (h.subBalance _ _).addBalance _ _

theorem callWorld {env : Env} (caller addr : Address) (value : Int) :
    CodeFits (callWorld env caller addr value w) := by
  unfold Vm.callWorld
  split
  · exact (h.createAccount _).transfer _ _ _
  · exact h.transfer _ _ _

theorem bumpNonce {env : Env} (caller address : Address) :
    CodeFits (bumpNonce env caller address w) := by
  unfold Vm.bumpNonce
  dsimp only
  split
  · exact (h.setNonce _ _).congr rfl
  · exact h.setNonce _ _

theorem newContractWorld {env : Env} (caller address : Address) (value : Int) :
    CodeFits (newContractWorld env caller address value w) := by
  unfold Vm.newContractWorld
  refine .transfer ?_ _ _ _
  split
  · exact (h.createAccount _).setNonce _ _
  · exact h.createAccount _

end CodeFits

/-! ## Calls and creations -/

def Abort.Safe (a : Abort) : Prop := ∀ f, a = .fault f → f.own = false

def RunSafe (run : RunFn) : Prop :=
  ∀ c input readOnly evm, c.code.length < intLimit → input.length < intLimit → CodeFits evm.world →
    Ensures Abort.Safe (fun r => CodeFits r.evm.world ∧ r.ret.length < intLimit)
      (run c input readOnly evm)

section Calls

variable {env : Env} {run : RunFn} {evm : Evm} {gas : Nat} {input : Bytes} {addr caller : Address}

theorem settle_codeFits {r : CallResult} (h : CodeFits r.evm.world) (hevm : CodeFits evm.world) :
    CodeFits (r.settle evm).evm.world := by
  rcases settle_cases r evm with hs | ⟨_, _, hs⟩
  · rw [hs]
    exact h
  · rw [hs]
    exact hevm

theorem RunSafe.serves (hrun : RunSafe run) (hinput : input.length < intLimit)
    (hevm : CodeFits evm.world) {c : Contract} {readOnly : Bool} {evm1 : Evm}
    (hcode : c.code.length < intLimit) (hevm1 : CodeFits evm1.world) :
    Serves env run Abort.Safe (fun r => CodeFits r.evm.world) addr input evm c readOnly evm1 where
  idle := hevm1
  native := by
    intro p _
    refine settle_codeFits ?_ hevm
    unfold runPrecompiledContract
    dsimp only
    split <;> exact hevm1
  frame := (hrun c input readOnly evm1 hcode hinput hevm1).imp fun _ hr => settle_codeFits hr.1 hevm

theorem RunSafe.invoke (hrun : RunSafe run) (kind : CallKind) (m : Machine) (a : CallArgs)
    (hinput : input.length < intLimit) (hworld : CodeFits m.evm.world) :
    Ensures Abort.Safe (fun r => CodeFits r.evm.world) (Vm.invoke env run kind m a input gas) := by
  cases kind with
  | call =>
    refine call_ensures (fun _ => hworld) ?_
    rintro - _ rfl
    have hcall : CodeFits (callWorld env m.contract.self (toAddress a.addr) a.value.toNat
        m.evm.world) := hworld.callWorld _ _ _
    exact hrun.serves hinput hworld (hcall _) hcall
  | callCode =>
    exact callCode_ensures (fun _ => hworld) (hrun.serves hinput hworld (hworld _) hworld)
  | delegateCall =>
    exact delegateCall_ensures (fun _ => hworld) (hrun.serves hinput hworld (hworld _) hworld)
  | staticCall =>
    refine staticCall_ensures (fun _ => hworld) ?_
    rintro _ rfl
    have htouch : CodeFits (m.evm.world.addBalance env.keccak (toAddress a.addr) 0) :=
      hworld.addBalance _ _
    exact hrun.serves hinput hworld (htouch _) htouch

theorem RunSafe.createAt (hrun : RunSafe run) {code : Bytes} (value : Int) (address : Address)
    (hcode : code.length < intLimit) (hworld : CodeFits evm.world) :
    Ensures Abort.Safe (fun r => CodeFits r.evm.world)
      (Vm.createAt env run caller code gas value address evm) := by
  have hbump : CodeFits (bumpNonce env caller address evm.world) := hworld.bumpNonce _ _
  refine createAt_ensures (fun _ => hworld) ?_ ?_
  · rintro _ rfl
    exact hbump
  rintro _ rfl - _ rfl
  have hnew : CodeFits (newContractWorld env caller address value
      (bumpNonce env caller address evm.world)) := hbump.newContractWorld _ _ _
  refine ⟨hnew, (hrun _ _ _ _ hcode (by decide) hnew).imp fun r hr => ?_⟩
  obtain ⟨-, h | h | ⟨code, hle, h⟩⟩ := finishCreate_cases env address
    { evm with world := bumpNonce env caller address evm.world } r
  · rw [h]
    exact hr.1
  · rw [h]
    exact hbump
  · rw [h]
    exact hr.1.setCode (hle.trans_lt hr.2)

end Calls

/-! ## Operations -/

def Execute.nests : Execute → Bool
  | .create => true
  | .create2 => true
  | .call _ => true
  | _ => false

structure Done (x : Execute) (m : Machine) (r : Machine × Bytes) : Prop where
  stack : r.1.loc.stack.length + x.pops = m.loc.stack.length + x.pushes
  code : r.1.contract.code = m.contract.code
  input : r.1.contract.input = m.contract.input
  world : CodeFits r.1.evm.world
  result : x.nests = false → r.2.length < intLimit

theorem Stop.Regular.safe {s : Stop} (h : s.Regular) : s.lift Abort.Safe := h.lift

section Operations

variable {env : Env} {run : RunFn} {m : Machine}

def Roomy (x : Execute) (l : Local) : Prop :=
  ∀ f ∈ x.memory, ∃ size, size ≤ maxMemory ∧ size ≤ l.memory.store.length ∧ f.Covered l.stack size

theorem popTopics_regular {n : Nat} {s : List Word} (h : n ≤ s.length) :
    Ensures Stop.Regular (fun r => r.2.length + n = s.length) (popTopics n s) := by
  induction n generalizing s with
  | zero => exact .ok rfl
  | succ n ih =>
    refine pop_bind h fun topic _ hstack hn => (ih hn).bind fun r hr => .ok ?_
    show r.2.length + (n + 1) = s.length
    rw [hstack, List.length_cons]
    omega

theorem addGas_safe (x y : Nat) : Ensures (Stop.lift Abort.Safe) (fun _ => True) (addGas x y) := by
  refine .ite (fun _ => .ok trivial) fun _ => .error ?_
  rintro f ⟨⟩
  rfl

theorem popCallArgs_regular {hasValue : Bool} {s : List Word}
    (h : (if hasValue then 7 else 6) ≤ s.length) :
    Ensures Stop.Regular (fun r => r.1.On hasValue s r.2) (popCallArgs hasValue s) := by
  refine .of_cases (fun r hr => (popCallArgs_own hasValue s).of_ok hr) fun e he => ?_
  -- there are enough items, so it does not fail
  exfalso
  cases hasValue with
  | true =>
    match s, h with
    | _ :: _ :: _ :: _ :: _ :: _ :: _ :: _, _ => cases he
  | false =>
    match s, h with
    | _ :: _ :: _ :: _ :: _ :: _ :: _, _ => cases he

theorem CallArgs.On.length {a : CallArgs} {kind : CallKind} {s rest : List Word}
    (h : a.On kind.hasValue s rest) :
    rest.length + 1 + (Execute.call kind).pops = s.length + (Execute.call kind).pushes := by
  obtain ⟨gas, h⟩ := h
  cases kind <;> simp only [CallKind.hasValue] at h
  · rw [h]; rfl
  · rw [h]; rfl
  · rw [h.2]; rfl
  · rw [h.2]; rfl

variable (hworld : CodeFits m.evm.world)
include hworld

theorem opSha3_done (hdeep : 2 ≤ m.loc.stack.length) (hroom : Roomy .sha3 m.loc) :
    Ensures Stop.Regular (Done .sha3 m) (opSha3 env m) := by
  obtain ⟨size, hmax, hstore, hcov⟩ := hroom _ rfl
  refine pop_bind hdeep fun offset _ hstack hn => pop_bind hn fun size s h2 _ => ?_
  subst h2
  rw [hstack] at hcov
  refine (slice_regular hmax hstore (hcov _ _ rfl rfl)).bind fun data _ => .ok ?_
  refine ⟨?_, rfl, rfl, ?_, fun _ => (by decide : 0 < intLimit)⟩
  · rw [hstack]
    rfl
  split
  · refine hworld.congr ?_
    unfold World.addPreimage
    split <;> rfl
  · exact hworld

theorem opSstore_done (hdeep : 2 ≤ m.loc.stack.length) :
    Ensures Stop.Regular (Done .sstore m) (opSstore env m) := by
  refine pop_bind hdeep fun loc _ h1 hn => pop_bind hn fun val s h2 _ => .ok ?_
  refine ⟨?_, rfl, rfl, hworld.setState _ _ _, fun _ => (by decide : 0 < intLimit)⟩
  rw [h1, h2]
  rfl

theorem makeLog_done {size : Nat} (hdeep : size + 2 ≤ m.loc.stack.length)
    (hroom : Roomy (.log size) m.loc) :
    Ensures Stop.Regular (Done (.log size) m) (makeLog size env m) := by
  obtain ⟨n, hmax, hstore, hcov⟩ := hroom _ rfl
  refine pop_bind hdeep fun mStart _ hstack hn => pop_bind hn fun mSize s h2 hn2 => ?_
  subst h2
  rw [hstack] at hcov
  refine (popTopics_regular hn2).bind fun r3 h3 => ?_
  refine (slice_regular hmax hstore (hcov _ _ rfl rfl)).bind fun data _ => .ok ?_
  refine ⟨?_, rfl, rfl, hworld.congr rfl, fun _ => (by decide : 0 < intLimit)⟩
  show r3.2.length + (size + 2) = m.loc.stack.length
  rw [hstack, List.length_cons, List.length_cons]
  omega

theorem opSuicide_done (hdeep : 1 ≤ m.loc.stack.length) :
    Ensures Stop.Regular (Done .suicide m) (opSuicide env m) := by
  refine pop_bind hdeep fun beneficiary s hstack _ => .ok ?_
  refine ⟨?_, rfl, rfl, (hworld.addBalance _ _).suicide _, fun _ => (by decide : 0 < intLimit)⟩
  rw [hstack]
  rfl

variable (hrun : RunSafe run)
include hrun

theorem creation_done {x : Execute} (hnests : x.nests = true) {input : Bytes} {s : List Word}
    (gas : Nat) (value : Int) (address : Address) (stackvalue : CreateResult → Word)
    (hstack : s.length + 1 + x.pops = m.loc.stack.length + x.pushes)
    (hinput : input.length < intLimit) :
    Ensures (Stop.lift Abort.Safe) (Done x m)
      (returning (createAt env run m.contract.self input gas value address (m.useGas gas).evm) >>=
        fun r => finishOpCreate (m.useGas gas) s r (stackvalue r)) := by
  refine .bind (returning_ensures (hrun.createAt value address hinput hworld)) fun r hr => ?_
  refine (addGas_safe _ _).bind fun gas' _ => .ok ?_
  exact ⟨hstack, rfl, rfl, hr, fun h => by rw [hnests] at h; cases h⟩

theorem opCreate_done (hdeep : 3 ≤ m.loc.stack.length) (hroom : Roomy .create m.loc) :
    Ensures (Stop.lift Abort.Safe) (Done .create m) (opCreate env run m) := by
  obtain ⟨size, hmax, hstore, hcov⟩ := hroom _ rfl
  refine pop_bind hdeep fun value _ hstack hn => pop_bind hn fun offset _ h2 hn => ?_
  refine pop_bind hn fun size s h3 _ => ?_
  subst h2 h3
  rw [hstack] at hcov
  refine ((slice_regular hmax hstore (hcov _ _ rfl rfl)).weaken fun _ => Stop.Regular.safe).bind
    fun input hinput => ?_
  refine creation_done hworld hrun rfl _ _ _ _ ?_ (hinput.trans_lt (by decide))
  rw [hstack]
  rfl

theorem opCreate2_done (hdeep : 4 ≤ m.loc.stack.length) (hroom : Roomy .create2 m.loc) :
    Ensures (Stop.lift Abort.Safe) (Done .create2 m) (opCreate2 env run m) := by
  obtain ⟨size, hmax, hstore, hcov⟩ := hroom _ rfl
  refine pop_bind hdeep fun endowment _ hstack hn => pop_bind hn fun offset _ h2 hn => ?_
  refine pop_bind hn fun size _ h3 hn => pop_bind hn fun salt s h4 _ => ?_
  subst h2 h3 h4
  rw [hstack] at hcov
  refine ((slice_regular hmax hstore (hcov _ _ rfl rfl)).weaken fun _ => Stop.Regular.safe).bind
    fun input hinput => ?_
  refine creation_done hworld hrun rfl _ _ _ _ ?_ (hinput.trans_lt (by decide))
  rw [hstack]
  rfl

theorem opCall_done {kind : CallKind} (hdeep : (Execute.call kind).pops ≤ m.loc.stack.length)
    (hroom : Roomy (.call kind) m.loc) :
    Ensures (Stop.lift Abort.Safe) (Done (.call kind) m) (opCall env run kind m) := by
  obtain ⟨size, hmax, hstore, hcov⟩ := hroom _ rfl
  refine ((popCallArgs_regular hdeep).weaken fun _ => Stop.Regular.safe).bind ?_
  rintro ⟨a, rest⟩ ha
  obtain ⟨hin, hret⟩ := ha.covers hcov
  refine ((slice_regular hmax hstore hin).weaken fun _ => Stop.Regular.safe).bind
    fun args hargs => ?_
  refine .bind (Q := fun _ => True) (.ite (fun _ => ?_) fun _ => .ok trivial) fun gas _ => ?_
  · generalize callStipend = stipend
    exact addGas_safe _ _
  refine .bind (returning_ensures
    (hrun.invoke kind m a (hargs.trans_lt (by decide)) hworld)) fun r hr => ?_
  -- the output is written inside the memory, which keeps its size
  refine .bind (Q := fun memory => size ≤ memory.store.length) ?_ fun memory hmem => ?_
  · refine .bind (Q := fun _ => True) ?_ fun ret _ => ?_
    · cases r.ret with
      | bytes b => exact .ok trivial
      | input =>
        exact (slice_regular hmax hstore hin).mono (fun _ => Stop.Regular.safe) fun _ _ => trivial
    refine .ite (fun _ => ?_) fun _ => .ok hstore
    rw [set_covered hret hmax hstore]
    refine .ok ?_
    rw [length_overwrite_covered hret hstore]
    exact hstore
  refine .bind (Q := fun _ => True) ?_ fun res _ => ?_
  · cases r.ret with
    | bytes b => exact .ok trivial
    | input =>
      exact (slice_regular hmax hmem hin).mono (fun _ => Stop.Regular.safe) fun _ _ => trivial
  refine (addGas_safe _ _).bind fun gas' _ => .ok ?_
  exact ⟨ha.length, rfl, rfl, hr, nofun⟩

end Operations

/-! ## Steps and runs -/

structure FrameFits (m : Machine) : Prop where
  code : m.contract.code.length < intLimit
  input : m.contract.input.length < intLimit
  world : CodeFits m.evm.world

section Runs

variable {env : Env} {run : RunFn} {m m1 : Machine} {op : OpCode} {o : Operation}

theorem Execute.memory_fixed (x : Execute) :
    ∀ f ∈ x.memory, ∀ length, f = .fixed length → 0 < length ∧ length < 2 ^ 64 := by
  intro f hf length hlen
  subst hlen
  cases x with
  | loc op => cases op <;> cases hf <;> decide
  | call kind => cases kind <;> cases hf
  | _ => cases hf

theorem Prepared.roomy (hc : Consistent op o) (hp : Prepared env op o m m1) :
    Roomy o.execute m1.loc := by
  intro f hf
  obtain ⟨size, hsize, hmax, hstore, -⟩ := hp.store
  refine ⟨size, hmax, hstore, ?_⟩
  rw [hp.stack]
  exact requiredMemory_covered (Execute.memory_fixed _ f hf) (hc.memory.trans hf) hsize

theorem Prepared.fits (hp : Prepared env op o m m1) (h : FrameFits m) : FrameFits m1 := by
  obtain ⟨_, -, -, _, ⟨_, _, _, _, _, rfl⟩, rfl⟩ := hp.frame
  exact ⟨h.code, h.input, h.world.congr rfl⟩

theorem execute_done (hrun : RunSafe run) (hfetch : Fetched env m op o)
    (hp : Prepared env op o m m1) (hfits : FrameFits m) :
    Ensures (Stop.lift Abort.Safe) (Done o.execute m1) (execute env run o.execute m1) := by
  have hc := hfetch.consistent
  have hdeep : o.execute.pops ≤ m1.loc.stack.length := hp.stack ▸ hp.deep
  have hroom := hp.roomy hc
  obtain ⟨hcode, hinput, hworld⟩ := hp.fits hfits
  have hflags := hc.fits
  have hpc : m1.loc.pc = m.loc.pc ∧ m1.contract.code = m.contract.code := by
    obtain ⟨_, -, -, _, ⟨_, _, _, _, _, rfl⟩, rfl⟩ := hp.frame
    exact ⟨rfl, rfl⟩
  cases hx : o.execute with
  | loc lop =>
    rw [hx] at hdeep hroom hflags
    have hready : Ready lop m1.contract m1.evm.world m1.loc := by
      refine ⟨hdeep, hroom, hcode, hinput, hworld, ?_, ?_⟩
      · rintro size rfl
        simp only [Execute.fits, Bool.and_eq_true, decide_eq_true_eq] at hflags
        exact hflags.1
      rintro size rfl
      simp only [Execute.fits, Bool.and_eq_true, decide_eq_true_eq] at hflags
      rw [hpc.1, hpc.2]
      exact hfetch.pc_lt hflags.1
    refine (lop.exec_regular hready).bind (fun r hr => .ok ?_) |>.weaken fun _ => Stop.Regular.safe
    exact ⟨hr.1, rfl, rfl, hworld, fun _ => hr.2.trans_lt (by decide)⟩
  | sha3 =>
    rw [hx] at hdeep hroom
    exact (opSha3_done hworld hdeep hroom).weaken fun _ => Stop.Regular.safe
  | sstore =>
    rw [hx] at hdeep
    exact (opSstore_done hworld hdeep).weaken fun _ => Stop.Regular.safe
  | log size =>
    rw [hx] at hdeep hroom
    exact (makeLog_done hworld hdeep hroom).weaken fun _ => Stop.Regular.safe
  | suicide =>
    rw [hx] at hdeep
    exact (opSuicide_done hworld hdeep).weaken fun _ => Stop.Regular.safe
  | create =>
    rw [hx] at hdeep hroom
    exact opCreate_done hworld hrun hdeep hroom
  | create2 =>
    rw [hx] at hdeep hroom
    exact opCreate2_done hworld hrun hdeep hroom
  | call kind =>
    rw [hx] at hdeep hroom
    exact opCall_done hworld hrun hdeep hroom

def StepSafe : Machine ⊕ Result → Prop
  | .inl m => FrameFits m ∧ m.loc.stack.length ≤ stackLimit
  | .inr r => CodeFits r.evm.world ∧ r.ret.length < intLimit

theorem Consistent.not_nests (hc : Consistent op o) (h : o.halts = true ∨ o.reverts = true) :
    o.execute.nests = false := by
  have hflags := hc.fits
  cases hx : o.execute with
  | create | create2 | call _ =>
    rw [hx] at hflags
    simp only [Execute.fits, Bool.and_eq_true, Bool.not_eq_true'] at hflags
    rcases h with h | h <;> simp [h] at hflags
  | _ => rfl

theorem conclude_safe {r : Machine × Bytes} (hc : Consistent op o) (hp : Prepared env op o m m1)
    (hfits : FrameFits m) (h : Done o.execute m1 r) : StepSafe (conclude o r.1 r.2) := by
  obtain ⟨hstack, hcode, hinput, hworld, hres⟩ := h
  have hfits1 := hp.fits hfits
  have hle : r.1.loc.stack.length ≤ stackLimit := by
    have := hp.shallow
    rw [hp.stack] at hstack
    omega
  refine conclude_cases (fun hstop _ _ => ⟨hworld, hres (hc.not_nests hstop)⟩) fun _ _ _ => ?_
  refine ⟨⟨?_, ?_, hworld⟩, hle⟩
  · rw [hcode]
    exact hfits1.code
  · rw [hinput]
    exact hfits1.input

theorem stepWith_safe (hrun : RunSafe run) (hfits : FrameFits m) :
    Ensures Abort.Safe StepSafe (stepWith env run m) := by
  refine stepWith_ensures ?_ ?_ ?_
  · rintro _ ⟨_, _, rfl⟩ err
    exact ⟨hfits.world, (by decide : 0 < intLimit)⟩
  · rintro m' op o - - - f (rfl | rfl) - f' ⟨⟩ <;> rfl
  intro m' op o m1 hpoll hfetch _ hp
  have hfits' : FrameFits m' := by
    obtain ⟨_, _, rfl⟩ := hpoll
    exact ⟨hfits.code, hfits.input, hfits.world⟩
  exact (execute_done hrun hfetch hp hfits').imp fun r hr =>
    conclude_safe hfetch.consistent hp hfits' hr

theorem runWith_safe {loop : Machine → Except Abort Result} (h : ∀ m, FrameFits m →
      Ensures Abort.Safe (fun r => CodeFits r.evm.world ∧ r.ret.length < intLimit) (loop m)) :
    RunSafe (runWith loop) := fun _ _ _ _ hcode hinput hworld =>
  runWith_ensures ⟨hworld, (by decide : 0 < intLimit)⟩
    ((h _ ⟨hcode, hinput, hworld⟩).imp fun _ hr => hr)

theorem loop_safe (env : Env) (n : Nat) (m : Machine) (hfits : FrameFits m) :
    Ensures Abort.Safe (fun r => CodeFits r.evm.world ∧ r.ret.length < intLimit)
      (Lib.loop (step env) .fuel n m) := by
  revert hfits
  refine loop_spec (fun _ m x => FrameFits m → Ensures Abort.Safe
    (fun r : Result => CodeFits r.evm.world ∧ r.ret.length < intLimit) x) ?_ ?_ n m
  · intro m _
    exact Ensures.error nofun
  intro n ih m hfits
  have hstep : Ensures Abort.Safe StepSafe (step env (loop (step env) .fuel n) m) :=
    stepWith_safe (runWith_safe ih) hfits
  refine advance_cases (fun e he => hstep.of_error he) (fun m' hm' => ?_) fun r hr => ?_
  · exact ih m' (hstep.of_ok hm').1
  · exact hstep.of_ok hr

end Runs

/-! ## Main result -/

def Next (env : Env) (m m' : Machine) : Prop :=
  ∃ n, step env (Lib.loop (step env) .fuel n) m = .ok (.inl m')

/-- **The interpreter never faults on its own data structures**: stack, memory and slices, for every
instruction set, code, input and gas, and the stack never has more than 1024 items. The three
hypotheses say that lengths are lengths of slices. -/
theorem interpreter_never_faults (env : Env) (n : Nat) (c : Contract) (input : Bytes)
    (readOnly : Bool) (evm : Evm) (hcode : c.code.length < intLimit)
    (hinput : input.length < intLimit) (hworld : CodeFits evm.world) :
    Ensures Abort.Safe (fun _ => True) (run env n c input readOnly evm) ∧
      ∀ m, Relation.ReflTransGen (Next env)
        { contract := { c with input }, evm := enter readOnly evm } m →
        m.loc.stack.length ≤ stackLimit := by
  refine ⟨(runWith_safe (loop_safe env n) c input readOnly evm hcode hinput hworld).imp
    fun _ _ => trivial, fun m hm => ?_⟩
  suffices h : FrameFits m ∧ m.loc.stack.length ≤ stackLimit from h.2
  induction hm with
  | refl => exact ⟨⟨hcode, hinput, hworld⟩, Nat.zero_le _⟩
  | tail _ hnext ih =>
    obtain ⟨k, hk⟩ := hnext
    exact (stepWith_safe (runWith_safe (loop_safe env k)) ih.1).of_ok hk

def popContract : Contract where
  callerAddress := 5
  self := 1000
  code := [OpCode.POP]
  gas := 100
  value := 0

theorem interpreter_never_faults_pop :
    ∃ r, run (Env.trivial (mainnetChainConfig.rules 0)) 5 popContract [] false
        { world := { account := fun _ => none } } = .ok r ∧
      r.err = some (.stackUnderflow 0 1) ∧
      ∀ m, Relation.ReflTransGen (Next (Env.trivial (mainnetChainConfig.rules 0)))
        { contract := popContract,
          evm := enter false { world := { account := fun _ => none } } } m →
        m.loc.stack.length ≤ stackLimit :=
  ⟨_, rfl, rfl, (interpreter_never_faults (.trivial (mainnetChainConfig.rules 0)) 5 popContract []
    false { world := { account := fun _ => none } } (by decide) (by decide)
    fun _ => (by decide : 0 < intLimit)).2⟩

end Virbicoin.Vm
