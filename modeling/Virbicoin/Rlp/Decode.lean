import Virbicoin.Lib.State
import Virbicoin.Rlp.Encode

/-!
# RLP decoding

`rlp/decode.go`: `DecodeBytes` into an `interface{}`. The decoder reads from a stream that counts
the bytes left, caches the kind and size of the value ahead, and keeps the position inside each
enclosing list on a stack.

A stream is described by the bytes ahead and the stack (`At`), and it is `Ready` when no kind is
cached. Each operation of the stream is characterised by when it succeeds and by the state it then
leaves, always the old one moved forward by some bytes (`Stream.adv`).
-/

namespace Virbicoin.Rlp

open Virbicoin.Lib List

inductive Kind where
  | byte
  | string
  | list
  deriving DecidableEq, Repr

/-- The errors of the stream and of the decoders, with `outOfFuel` for a recursion the model cut
off. The type a `decodeError` names is always `[]interface{}` here. -/
inductive Err where
  | eol
  | eof
  | unexpectedEOF
  | expectedString
  | expectedList
  | canonInt
  | canonSize
  | elemTooLarge
  | valueTooLarge
  | moreThanOneValue
  | notInList
  | notAtEOL
  | uintOverflow
  | decodeError (msg : String) (ctx : List String)
  | outOfFuel
  deriving DecidableEq, Repr

def wrapStreamError : Err → Err
  | .canonInt => .decodeError "non-canonical integer (leading zero bytes)" []
  | .canonSize => .decodeError "non-canonical size information" []
  | .expectedList => .decodeError "expected input list" []
  | .expectedString => .decodeError "expected input string or byte" []
  | .uintOverflow => .decodeError "input string too long" []
  | .notAtEOL => .decodeError "input list has too many elements" []
  | err => err

def addErrorContext (err : Err) (ctx : String) : Err :=
  match err with
  | .decodeError msg ctxs => .decodeError msg (ctxs ++ [ctx])
  | err => err

structure ListPos where
  pos : Nat
  size : Nat
  deriving DecidableEq, Repr

/-- A stream over a byte slice. The `uint64`s are natural numbers: a position never passes the size
of its list (`At.room`), so no subtraction wraps. -/
structure Stream where
  /-- The bytes the reader has not delivered yet. -/
  input : List Byte
  remaining : Nat
  limited : Bool
  /-- The field `kind`: the kind of the value ahead, `none` for the source's `-1`. -/
  ahead : Option Kind := none
  size : Nat := 0
  byteval : Byte := 0
  kinderr : Option Err := none
  /-- Positions in the enclosing lists, the innermost first. -/
  stack : List ListPos := []
  deriving DecidableEq, Repr

abbrev Prog := EStateM Err Stream

def overflows : List ListPos → Nat → Bool
  | [], _ => false
  | tos :: _, n => n > tos.size - tos.pos

def bump : List ListPos → Nat → List ListPos
  | [], _ => []
  | tos :: stack, n => { tos with pos := tos.pos + n } :: stack

namespace Stream

def willRead (n : Nat) : Prog Unit := fun s =>
  let s := { s with ahead := none }
  if overflows s.stack n then .error .elemTooLarge s
  else
    let s := { s with stack := bump s.stack n }
    if s.limited then
      if n > s.remaining then .error .valueTooLarge s
      else .ok () { s with remaining := s.remaining - n }
    else .ok () s

def readByte : Prog Byte := do
  willRead 1
  match (← get).input with
  | [] => throw .unexpectedEOF
  | b :: input => do
    modify fun s => { s with input }
    pure b

/-- Reads `n` bytes. A reader that ends early has still delivered what it had. -/
def readFull (n : Nat) : Prog (List Byte) := do
  willRead n
  let input := (← get).input
  modify fun s => { s with input := input.drop n }
  if input.length < n then throw .unexpectedEOF
  pure (input.take n)

def readUint (size : Nat) : Prog Nat :=
  match size with
  | 0 => do
    modify fun s => { s with ahead := none }
    pure 0
  | 1 => do
    let b ← readByte
    pure b.toNat
  | size => do
    let buf ← readFull size
    if buf.head? = some 0 then throw .canonSize
    pure (ofBigEndian buf)

/-- The long forms of `readKind`: the size stands in `size` bytes after the tag. -/
def readKindSize (k : Kind) (size : Nat) (s : Stream) : (Kind × Nat × Option Err) × Stream :=
  match readUint size s with
  | .ok size s => ((k, size, if size < 56 then some .canonSize else none), s)
  | .error err s => ((k, 0, some err), s)

/-- Reads the type tag and the size of the value ahead. Kind and size are returned next to an
error. -/
def readKind (s : Stream) : (Kind × Nat × Option Err) × Stream :=
  match readByte s with
  | .error err s =>
    -- At toplevel, running out of input is the end of the stream.
    let err := if s.stack = [] ∧ (err = .unexpectedEOF ∨ err = .valueTooLarge) then .eof else err
    ((.byte, 0, some err), s)
  | .ok b s =>
    let s := { s with byteval := 0 }
    if b < 0x80 then ((.byte, 0, none), { s with byteval := b })
    else if b < 0xB8 then ((.string, (b - 0x80).toNat, none), s)
    else if b < 0xC0 then readKindSize .string (b - 0xB7).toNat s
    else if b < 0xF8 then ((.list, (b - 0xC0).toNat, none), s)
    else readKindSize .list (b - 0xF7).toNat s

def atEOL (s : Stream) : Bool :=
  match s.stack with
  | [] => false
  | tos :: _ => tos.pos == tos.size

def checkSize (s : Stream) (size : Nat) : Option Err :=
  if s.stack = [] then
    if s.limited ∧ size > s.remaining then some .valueTooLarge else none
  else if overflows s.stack size then some .elemTooLarge else none

/-- The answer to `Kind` that the last call of `readKind` left. -/
def cachedKind (k : Kind) : Prog (Kind × Nat) := fun s =>
  match s.kinderr with
  | none => .ok (k, s.size) s
  | some err => .error err s

/-- The part of `Kind` that reads: nothing is read at the end of the innermost list, and the size is
checked. -/
def readAhead : Prog (Kind × Nat) := fun s =>
  if s.atEOL then .error .eol s
  else
    let ((k, size, err), s) := readKind s
    cachedKind k { s with ahead := some k, size, kinderr := err.or (s.checkSize size) }

/-- The kind and size of the value ahead; later calls return the cached answer. -/
def kind : Prog (Kind × Nat) := fun s =>
  match s.ahead with
  | some k => cachedKind k s
  | none => readAhead { s with kinderr := none }

def bytes : Prog (List Byte) := do
  match ← kind with
  | (.byte, _) =>
    modify fun s => { s with ahead := none }
    pure [(← get).byteval]
  | (.string, size) =>
    let b ← readFull size
    if size = 1 ∧ b.headD 0 < 128 then throw .canonSize
    pure b
  | (.list, _) => throw .expectedString

def list : Prog Nat := do
  match ← kind with
  | (.list, size) =>
    modify fun s => { s with stack := ⟨0, size⟩ :: s.stack, ahead := none, size := 0 }
    pure size
  | _ => throw .expectedList

def listEnd : Prog Unit := do
  match (← get).stack with
  | [] => throw .notInList
  | tos :: stack =>
    if tos.pos ≠ tos.size then throw .notAtEOL
    modify fun s => { s with stack := bump stack tos.size, ahead := none, size := 0 }

end Stream

def decodeListSlice (elems : Prog (List Value)) : Prog (List Value) := do
  let size ← tryCatch Stream.list fun err => throw (wrapStreamError err)
  if size = 0 then
    Stream.listEnd
    return []
  let vs ← elems
  Stream.listEnd
  return vs

mutual

/-- Decodes one value. The fuel bounds the depth of the recursion. -/
def decodeInterface : Nat → Prog Value
  | 0 => throw .outOfFuel
  | fuel + 1 => do
    match ← Stream.kind with
    | (.list, _) =>
      let vs ← decodeListSlice (decodeSliceElems fuel 0)
      return .list vs
    | _ =>
      let b ← Stream.bytes
      return .bytes b

/-- Decodes elements, the next one being the `i`-th, up to the end of the list. -/
def decodeSliceElems : Nat → Nat → Prog (List Value)
  | 0, _ => throw .outOfFuel
  | fuel + 1, i => fun s =>
    match decodeInterface fuel s with
    | .ok v s =>
      match decodeSliceElems fuel (i + 1) s with
      | .ok vs s => .ok (v :: vs) s
      | .error err s => .error err s
    | .error .eol s => .ok [] s
    | .error err s => .error (addErrorContext err ("[" ++ toString i ++ "]")) s

end

/-- `Stream.Decode` into an `interface{}`. -/
def Stream.decode (fuel : Nat) (s : Stream) : EStateM.Result Err Stream Value :=
  match decodeInterface fuel s with
  | .error (.decodeError msg (c :: ctx)) s =>
    .error (.decodeError msg (c :: ctx ++ ["(interface \x7b\x7d)"])) s
  | res => res

/-- `DecodeBytes` into an `interface{}`: the input holds one value and nothing after it. -/
def decodeBytes (b : List Byte) : Except Err Value :=
  match Stream.decode (2 * b.length + 1) ⟨b, b.length, true, none, 0, 0, none, []⟩ with
  | .error err _ => .error err
  | .ok v s => if s.input.length > 0 then .error .moreThanOneValue else .ok v

/-! ## Positions in the stream -/

/-- Whether `n` more bytes fit into the innermost list. -/
def Room : List ListPos → Nat → Prop
  | [], _ => True
  | tos :: _, n => tos.pos + n ≤ tos.size

theorem bump_bump {m n : Nat} : bump (bump stack m) n = bump stack (m + n) := by
  cases stack with
  | nil => rfl
  | cons tos stack => simp [bump, add_assoc]

theorem room_bump {stack : List ListPos} {m n : Nat} :
    Room (bump stack m) n ↔ Room stack (m + n) := by
  cases stack with
  | nil => simp [bump, Room]
  | cons tos stack => simp [bump, Room, add_assoc]

theorem Room.mono {stack : List ListPos} {m n : Nat} (h : Room stack n) (hle : m ≤ n) :
    Room stack m := by
  cases stack with
  | nil => trivial
  | cons tos stack =>
    simp only [Room] at h ⊢
    omega

/-- The stream has the bytes `input` ahead and stands at the positions `stack`. -/
structure At (s : Stream) (input : List Byte) (stack : List ListPos) : Prop where
  input_eq : s.input = input
  remaining_eq : s.remaining = input.length
  limited : s.limited = true
  stack_eq : s.stack = stack
  room : Room stack 0

/-- The stream stands before a value whose tag has not been read. -/
structure Ready (s : Stream) (input : List Byte) (stack : List ListPos) : Prop
    extends At s input stack where
  ahead_eq : s.ahead = none

def Stream.adv (s : Stream) (n : Nat) : Stream :=
  { s with
    input := s.input.drop n
    remaining := s.remaining - n
    ahead := none
    stack := bump s.stack n }

variable {s s' : Stream} {input rest : List Byte} {stack : List ListPos}

theorem At.adv {n : Nat} (h : At s input stack) (hroom : Room stack n) :
    Ready (s.adv n) (input.drop n) (bump stack n) where
  input_eq := by rw [Stream.adv, h.input_eq]
  remaining_eq := by rw [Stream.adv, h.remaining_eq, length_drop]
  limited := h.limited
  stack_eq := by rw [Stream.adv, h.stack_eq]
  room := room_bump.2 (by simpa using hroom)
  ahead_eq := rfl

theorem At.overflows_iff {n : Nat} (h : At s input stack) : overflows stack n ↔ ¬ Room stack n := by
  have hroom := h.room
  cases stack with
  | nil => simp [overflows, Room]
  | cons tos stack =>
    simp only [overflows, Room, decide_eq_true_eq, add_zero] at hroom ⊢
    omega

/-! ## Reading bytes -/

namespace Stream

theorem adv_byteval_adv (m n : Nat) (b : Byte) :
    Stream.adv { s.adv m with byteval := b } n = { s.adv (m + n) with byteval := b } := by
  simp only [Stream.adv, drop_drop, bump_bump, Nat.sub_sub]

theorem willRead_ok {n : Nat} {u : Unit} (h : At s input stack) : willRead n s = .ok u s' ↔
      Room stack n ∧ n ≤ input.length ∧ s' = { s.adv n with input := s.input } := by
  have hover : overflows s.stack n ↔ ¬ Room stack n := h.stack_eq ▸ h.overflows_iff
  have hlimited := h.limited
  have hremaining := h.remaining_eq
  unfold willRead adv
  by_cases hroom : Room stack n
  · by_cases hn : n ≤ input.length
    · simp [hover, hroom, hlimited, hremaining, hn, not_lt.2 hn, @eq_comm _ s']
    · simp [hover, hroom, hlimited, hremaining, hn, not_le.1 hn]
  · simp [hover, hroom]

variable {size : Nat} {hd : List Byte} {b : Byte} {k : Kind}

theorem readByte_ok (h : At s input stack) :
    readByte s = .ok b s' ↔ Room stack 1 ∧ input.head? = some b ∧ s' = s.adv 1 := by
  unfold readByte
  rw [State.bind_eq_ok]
  simp only [willRead_ok h, State.get_bind]
  constructor
  · rintro ⟨-, t, ⟨hroom, hlen, rfl⟩, hread⟩
    cases input with
    | nil => simp at hlen
    | cons b' input =>
      simp only [h.input_eq, State.modify_bind, State.pure_apply, EStateM.Result.ok.injEq] at hread
      refine ⟨hroom, by simp [hread.1], ?_⟩
      rw [← hread.2]
      simp [Stream.adv, h.input_eq]
  rintro ⟨hroom, hhead, rfl⟩
  cases input with
  | nil => simp at hhead
  | cons b' input =>
    obtain rfl : b' = b := by simpa using hhead
    refine ⟨(), _, ⟨hroom, by simp, rfl⟩, ?_⟩
    simp [h.input_eq, Stream.adv]

theorem readFull_ok {n : Nat} {buf : List Byte} (h : At s input stack) : readFull n s = .ok buf s' ↔
      Room stack n ∧ n ≤ input.length ∧ buf = input.take n ∧ s' = s.adv n := by
  unfold readFull
  rw [State.bind_eq_ok]
  simp only [willRead_ok h, State.get_bind, State.modify_bind]
  constructor
  · rintro ⟨-, t, ⟨hroom, hlen, rfl⟩, hread⟩
    simp only [h.input_eq, Nat.not_lt.2 hlen, if_false, State.pure_apply,
      EStateM.Result.ok.injEq] at hread
    refine ⟨hroom, hlen, hread.1.symm, ?_⟩
    rw [← hread.2]
    simp [Stream.adv, h.input_eq]
  rintro ⟨hroom, hlen, rfl, rfl⟩
  refine ⟨(), _, ⟨hroom, hlen, rfl⟩, ?_⟩
  simp [h.input_eq, Nat.not_lt.2 hlen, Stream.adv]

theorem readUint_ok {n v : Nat} (hn : 0 < n) (h : At s input stack) :
    readUint n s = .ok v s' ↔ Room stack n ∧ n ≤ input.length ∧ v = ofBigEndian (input.take n) ∧
      (n ≠ 1 → (input.take n).head? ≠ some 0) ∧ s' = s.adv n := by
  unfold readUint
  split
  · omega
  · rw [State.bind_eq_ok]
    simp only [readByte_ok h, State.pure_apply, EStateM.Result.ok.injEq]
    cases input with
    | nil => simp
    | cons b input =>
      constructor
      · rintro ⟨b', t, ⟨hroom, hhead, rfl⟩, rfl, rfl⟩
        obtain rfl : b = b' := by simpa using hhead
        exact ⟨hroom, by simp, by simp [ofBigEndian], by simp, rfl⟩
      rintro ⟨hroom, -, rfl, -, rfl⟩
      exact ⟨b, _, ⟨hroom, by simp, rfl⟩, by simp [ofBigEndian], rfl⟩
  rename_i hne0 hne1
  rw [State.bind_eq_ok]
  simp only [readFull_ok h]
  constructor
  · rintro ⟨buf, t, ⟨hroom, hlen, rfl, rfl⟩, hread⟩
    split at hread
    · cases hread
    rename_i hhead
    simp only [State.pure_apply, EStateM.Result.ok.injEq] at hread
    exact ⟨hroom, hlen, hread.1.symm, fun _ => hhead, hread.2.symm⟩
  rintro ⟨hroom, hlen, rfl, hhead, rfl⟩
  refine ⟨_, _, ⟨hroom, hlen, rfl, rfl⟩, ?_⟩
  rw [if_neg (hhead hne1)]
  rfl

/-! ## Headers -/

theorem readKindSize_ok {k' : Kind} {n : Nat} (hn : 0 < n) (hle : n ≤ 8) (h : At s input stack) :
    readKindSize k n s = ((k', size, none), s') ↔
      k' = k ∧ 56 ≤ size ∧ size < 2 ^ 64 ∧ (putint size).length = n ∧ putint size <+: input ∧
        Room stack n ∧ s' = s.adv n := by
  unfold readKindSize
  constructor
  · intro hread
    split at hread
    · rename_i v t hv
      obtain ⟨hroom, hlen, hval, hhead, ht⟩ := (readUint_ok hn h).1 hv
      simp only [Prod.mk.injEq] at hread
      obtain ⟨⟨rfl, rfl, herr⟩, rfl⟩ := hread
      have h56 : 56 ≤ v := by
        by_contra hlt
        rw [if_pos (by omega)] at herr
        cases herr
      have htake : (input.take n).length = n := length_take_of_le hlen
      have hlt : v < 2 ^ 64 := by
        have hpow : 256 ^ n ≤ 256 ^ 8 := Nat.pow_le_pow_right (by decide) hle
        have hv' := ofBigEndian_lt (input.take n)
        rw [htake, ← hval] at hv'
        omega
      have hput : putint v = input.take n := by
        rw [putint_eq hlt, bigEndian_byteSize_eq_iff (by omega)]
        refine ⟨hval.symm, ?_⟩
        by_cases h1 : n = 1
        · subst h1
          cases input with
          | nil => simp
          | cons b input =>
            intro hb
            obtain rfl : b = 0 := by simpa using hb
            simp [ofBigEndian] at hval
            omega
        · exact hhead h1
      refine ⟨rfl, h56, hlt, by rw [hput, htake], ?_, hroom, ht⟩
      rw [hput]
      exact take_prefix n input
    · cases hread
  rintro ⟨rfl, h56, hlt, hlen, hpre, hroom, rfl⟩
  have htake : input.take n = putint size := by
    rw [← hlen]
    exact (prefix_iff_eq_take.1 hpre).symm
  have hmin := (bigEndian_byteSize_eq_iff (n := size) (by omega)).1 (putint_eq hlt).symm
  have hread : readUint n s = .ok size (s.adv n) := by
    rw [readUint_ok hn h, htake]
    exact ⟨hroom, hlen ▸ hpre.length_le, hmin.1.symm, fun _ => hmin.2, rfl⟩
  simp only [hread, if_neg (not_lt.2 h56)]

/-- The canonical headers, with the kind and payload size they announce and the value of a single
byte. -/
inductive Head : Kind → Nat → Byte → List Byte → Prop where
  | byte {b : Byte} (h : b < 0x80) : Head .byte 0 b [b]
  | shortString {size : Nat} (h : size < 56) : Head .string size 0 [0x80 + BitVec.ofNat 8 size]
  | longString {size : Nat} (h56 : 56 ≤ size) (h : size < 2 ^ 64) :
    Head .string size 0 ((0xB7 + BitVec.ofNat 8 (putint size).length) :: putint size)
  | shortList {size : Nat} (h : size < 56) : Head .list size 0 [0xC0 + BitVec.ofNat 8 size]
  | longList {size : Nat} (h56 : 56 ≤ size) (h : size < 2 ^ 64) :
    Head .list size 0 ((0xF7 + BitVec.ofNat 8 (putint size).length) :: putint size)

theorem head_string (h : size < 2 ^ 64) : Head .string size 0 (puthead 0x80 0xB7 size) := by
  unfold puthead
  split
  · exact .shortString (by assumption)
  · exact .longString (by omega) h

theorem head_list (h : size < 2 ^ 64) : Head .list size 0 (puthead 0xC0 0xF7 size) := by
  unfold puthead
  split
  · exact .shortList (by assumption)
  · exact .longList (by omega) h

theorem head_string_inv (h : Head .string size b hd) :
    size < 2 ^ 64 ∧ hd = puthead 0x80 0xB7 size := by
  cases h with
  | shortString h => exact ⟨by omega, by rw [puthead, if_pos h]⟩
  | longString h56 h => exact ⟨h, by rw [puthead, if_neg (by omega)]⟩

theorem head_list_inv (h : Head .list size b hd) : size < 2 ^ 64 ∧ hd = puthead 0xC0 0xF7 size := by
  cases h with
  | shortList h => exact ⟨by omega, by rw [puthead, if_pos h]⟩
  | longList h56 h => exact ⟨h, by rw [puthead, if_neg (by omega)]⟩

theorem putint_length (h : size < 2 ^ 64) :
    0 < (putint size).length ∧ (putint size).length ≤ 8 := by
  rw [putint_eq h, bigEndian_length]
  exact ⟨byteSize_pos size, intsize_le h⟩

theorem Head.ne_nil (h : Head k size b hd) : hd ≠ [] := by cases h <;> simp

theorem puthead_short {small : Byte} (h : (b - small).toNat < 56) (large : Byte) :
    puthead small large (b - small).toNat = [b] := by
  rw [puthead, if_pos h, BitVec.ofNat_toNat, BitVec.setWidth_eq, BitVec.add_comm,
    BitVec.sub_add_cancel]

theorem readKind_sound (h : At s input stack) (hread : readKind s = ((k, size, none), s')) :
    ∃ hd b, Head k size b hd ∧ hd <+: input ∧ Room stack hd.length ∧
      s' = { s.adv hd.length with byteval := b } := by
  unfold readKind at hread
  split at hread
  · simp at hread
  rename_i b t hb
  obtain ⟨hroom, hhead, rfl⟩ := (readByte_ok h).1 hb
  obtain ⟨tail, rfl⟩ : ∃ tail, input = b :: tail := by
    cases input with
    | nil => simp at hhead
    | cons b' tail => exact ⟨tail, by simpa using hhead⟩
  -- The two long forms differ in the tag only.
  have hlong : ∀ {k' : Kind} {small large : Byte},
      (∀ {n}, n < 2 ^ 64 → Head k' n 0 (puthead small large n)) →
      0 < (b - large).toNat → (b - large).toNat ≤ 8 →
      readKindSize k' (b - large).toNat { s.adv 1 with byteval := 0 } = ((k, size, none), s') →
      ∃ hd b', Head k size b' hd ∧ hd <+: b :: tail ∧ Room stack hd.length ∧
        s' = { s.adv hd.length with byteval := b' } := by
    intro k' small large hHead hpos hle hsize
    have hat : At { s.adv 1 with byteval := 0 } tail (bump stack 1) :=
      { (h.adv hroom).toAt with }
    obtain ⟨rfl, h56, hlt, hlen, hpre, hroom', rfl⟩ := (readKindSize_ok hpos hle hat).1 hsize
    have hput : puthead small large size = b :: putint size := by
      rw [puthead, if_neg (Nat.not_lt.2 h56), hlen, BitVec.ofNat_toNat, BitVec.setWidth_eq,
        BitVec.add_comm, BitVec.sub_add_cancel]
    have hlength : (b :: putint size).length = 1 + (b - large).toNat := by
      rw [length_cons, hlen, add_comm]
    refine ⟨b :: putint size, 0, hput ▸ hHead hlt, by simpa using hpre, ?_, ?_⟩
    · rw [hlength]
      exact room_bump.1 hroom'
    · rw [hlength]
      exact adv_byteval_adv 1 _ 0
  dsimp only at hread
  split at hread
  · cases hread
    rename_i hlt
    exact ⟨[b], b, .byte hlt, by simp, hroom, rfl⟩
  split at hread
  · cases hread
    have hshort : (b - 0x80).toNat < 56 := by bv_omega
    refine ⟨[b], 0, ?_, by simp, hroom, rfl⟩
    rw [← puthead_short hshort 0xB7]
    exact head_string (by omega)
  split at hread
  · exact hlong head_string (by bv_omega) (by bv_omega) hread
  split at hread
  · cases hread
    have hshort : (b - 0xC0).toNat < 56 := by bv_omega
    refine ⟨[b], 0, ?_, by simp, hroom, rfl⟩
    rw [← puthead_short hshort 0xF7]
    exact head_list (by omega)
  · exact hlong head_list (by bv_omega) (by bv_omega) hread

theorem readKind_complete (h : At s input stack) (hhead : Head k size b hd) (hpre : hd <+: input)
    (hroom : Room stack hd.length) :
    readKind s = ((k, size, none), { s.adv hd.length with byteval := b }) := by
  obtain ⟨tail, rfl⟩ := hpre
  have hbyte : ∀ {b0 : Byte} {tl : List Byte}, hd = b0 :: tl → readByte s = .ok b0 (s.adv 1) := by
    rintro b0 tl rfl
    exact (readByte_ok h).2 ⟨hroom.mono (by simp), by simp, rfl⟩
  have hlong : ∀ {b0 : Byte} {k' : Kind} {n : Nat}, hd = b0 :: putint size → 56 ≤ size →
      size < 2 ^ 64 → n = (putint size).length →
      readKindSize k' n { s.adv 1 with byteval := 0 } =
        ((k', size, none), { s.adv hd.length with byteval := 0 }) := by
    rintro b0 k' n rfl h56 hlt rfl
    have hroom1 : Room stack 1 := hroom.mono (by simp)
    have hat : At { s.adv 1 with byteval := 0 } (putint size ++ tail) (bump stack 1) :=
      { (h.adv hroom1).toAt with }
    obtain ⟨hpos, hle⟩ := putint_length hlt
    rw [length_cons, add_comm] at hroom ⊢
    rw [← adv_byteval_adv 1 _ 0]
    exact (readKindSize_ok hpos hle hat).2 ⟨rfl, h56, hlt, rfl, by simp, room_bump.2 hroom, rfl⟩
  unfold readKind
  cases hhead with
  | byte hlt =>
    rw [hbyte rfl]
    dsimp only
    rw [if_pos hlt]
    rfl
  | shortString hlt =>
    rw [hbyte rfl]
    dsimp only
    have hsub : (0x80 + BitVec.ofNat 8 size - 0x80 : Byte).toNat = size := by bv_omega
    rw [if_neg (by bv_omega), if_pos (by bv_omega), hsub]
    rfl
  | longString h56 hlt =>
    obtain ⟨hpos, hle⟩ := putint_length hlt
    rw [hbyte rfl]
    dsimp only
    rw [if_neg (by bv_omega), if_neg (by bv_omega), if_pos (by bv_omega)]
    exact hlong rfl h56 hlt (by bv_omega)
  | shortList hlt =>
    rw [hbyte rfl]
    dsimp only
    have hsub : (0xC0 + BitVec.ofNat 8 size - 0xC0 : Byte).toNat = size := by bv_omega
    rw [if_neg (by bv_omega), if_neg (by bv_omega), if_neg (by bv_omega), if_pos (by bv_omega),
      hsub]
    rfl
  | longList h56 hlt =>
    obtain ⟨hpos, hle⟩ := putint_length hlt
    rw [hbyte rfl]
    dsimp only
    rw [if_neg (by bv_omega), if_neg (by bv_omega), if_neg (by bv_omega), if_neg (by bv_omega)]
    exact hlong rfl h56 hlt (by bv_omega)

/-! ## The kind ahead -/

theorem checkSize_none (h : At s input stack) :
    s.checkSize size = none ↔ Room stack size ∧ (stack = [] → size ≤ input.length) := by
  unfold checkSize
  rw [h.stack_eq, h.limited, h.remaining_eq]
  by_cases hnil : stack = []
  · subst hnil
    simp [Room]
  · simp [hnil, h.overflows_iff]

theorem not_atEOL (h : At s input stack) (hroom : Room stack 1) : s.atEOL = false := by
  unfold atEOL
  rw [h.stack_eq]
  cases stack with
  | nil => rfl
  | cons tos stack =>
    simp only [Room] at hroom
    simp only [beq_eq_false_iff_ne]
    omega

theorem kind_ready (h : Ready s input stack) : kind s = readAhead { s with kinderr := none } := by
  unfold kind
  split
  · rename_i k hk
    rw [h.ahead_eq] at hk
    cases hk
  · rfl

/-- The stream has read the header of a value and stands before its payload. -/
structure Cached (s : Stream) (k : Kind) (size : Nat) (b : Byte) (rest : List Byte)
    (stack : List ListPos) : Prop extends At s rest stack where
  ahead_eq : s.ahead = some k
  size_eq : s.size = size
  byteval_eq : s.byteval = b
  kinderr_eq : s.kinderr = none

variable {k : Kind} {size : Nat} {b : Byte}

theorem Cached.kind (h : Cached s k size b rest stack) : kind s = .ok (k, size) s := by
  unfold Stream.kind cachedKind
  simp only [h.ahead_eq, h.kinderr_eq, h.size_eq]

theorem kind_sound (h : Ready s input stack) (hk : kind s = .ok (k, size) s') :
    ∃ hd rest b, Head k size b hd ∧ input = hd ++ rest ∧ Room stack (hd.length + size) ∧
      (stack = [] → size ≤ rest.length) ∧ Cached s' k size b rest (bump stack hd.length) := by
  rw [kind_ready h] at hk
  have hclear : At { s with kinderr := none } input stack := { h.toAt with }
  unfold readAhead at hk
  split at hk
  · cases hk
  obtain ⟨⟨⟨k', size', err⟩, t⟩, hread⟩ : ∃ r, readKind { s with kinderr := none } = r := ⟨_, rfl⟩
  simp only [hread, cachedKind] at hk
  split at hk
  · rename_i hnone
    obtain ⟨rfl, hcheck⟩ := Option.or_eq_none_iff.1 hnone
    cases hk
    obtain ⟨hd, b, hhead, ⟨rest, rfl⟩, hroom, rfl⟩ := readKind_sound hclear hread
    have hat := (hclear.adv hroom).toAt
    rw [drop_left] at hat
    obtain ⟨hfit, htop⟩ := (checkSize_none { hat with }).1 hcheck
    refine ⟨hd, rest, b, hhead, rfl, room_bump.1 hfit, ?_, { hat with
      ahead_eq := rfl, size_eq := rfl, byteval_eq := rfl, kinderr_eq := hnone }⟩
    rintro rfl
    exact htop rfl
  · cases hk

theorem kind_complete (h : Ready s (hd ++ rest) stack) (hhead : Head k size b hd)
    (hroom : Room stack (hd.length + size)) (htop : stack = [] → size ≤ rest.length) :
    ∃ s', kind s = .ok (k, size) s' ∧ Cached s' k size b rest (bump stack hd.length) := by
  have hclear : At { s with kinderr := none } (hd ++ rest) stack := { h.toAt with }
  have hpos : 0 < hd.length := length_pos_iff.2 hhead.ne_nil
  have hread := readKind_complete hclear hhead (prefix_append hd rest) (hroom.mono (by omega))
  have hat := (hclear.adv (hroom.mono (Nat.le_add_right _ size))).toAt
  rw [drop_left] at hat
  have hcheck : checkSize { adv { s with kinderr := none } hd.length with byteval := b } size =
      none := by
    refine (checkSize_none { hat with }).2 ⟨room_bump.2 hroom, ?_⟩
    intro hnil
    apply htop
    cases stack with
    | nil => rfl
    | cons tos stack => cases hnil
  rw [kind_ready h, readAhead, if_neg (by rw [not_atEOL hclear (hroom.mono (by omega))]; decide),
    hread]
  simp only [cachedKind, hcheck, Option.or_none]
  exact ⟨_, rfl, { hat with
    ahead_eq := rfl, size_eq := rfl, byteval_eq := rfl, kinderr_eq := rfl }⟩

/-! ## Strings and lists -/

theorem bytes_byte (h : Cached s .byte size b rest stack) :
    bytes s = .ok [b] { s with ahead := none } := by
  unfold bytes
  rw [State.bind_of_ok h.kind]
  rw [← h.byteval_eq]
  rfl

theorem bytes_string_ok {buf : List Byte} (h : Cached s .string size b rest stack) :
    bytes s = .ok buf s' ↔ Room stack size ∧ size ≤ rest.length ∧ buf = rest.take size ∧
      ¬ (size = 1 ∧ buf.headD 0 < 128) ∧ s' = s.adv size := by
  unfold bytes
  rw [State.bind_of_ok h.kind]
  dsimp only
  rw [State.bind_eq_ok]
  simp only [readFull_ok h.toAt]
  constructor
  · rintro ⟨buf', t, ⟨hroom, hlen, rfl, rfl⟩, hread⟩
    split at hread
    · cases hread
    rename_i hcanon
    cases hread
    exact ⟨hroom, hlen, rfl, hcanon, rfl⟩
  rintro ⟨hroom, hlen, rfl, hcanon, rfl⟩
  refine ⟨_, _, ⟨hroom, hlen, rfl, rfl⟩, ?_⟩
  rw [if_neg hcanon]
  rfl

theorem list_ok (h : Cached s .list size b rest stack) :
    ∃ s', list s = .ok size s' ∧ Ready s' rest (⟨0, size⟩ :: stack) := by
  refine ⟨{ s with stack := ⟨0, size⟩ :: s.stack, ahead := none, size := 0 }, ?_, ?_⟩
  · unfold list
    rw [State.bind_of_ok h.kind]
    rfl
  exact {
    input_eq := h.input_eq
    remaining_eq := h.remaining_eq
    limited := h.limited
    stack_eq := by rw [h.stack_eq]
    room := Nat.zero_le _
    ahead_eq := rfl }

theorem listEnd_ok {n : Nat} (h : Ready s rest (⟨n, n⟩ :: stack)) (hroom : Room stack n) :
    ∃ s', listEnd s = .ok () s' ∧ Ready s' rest (bump stack n) := by
  refine ⟨{ s with stack := bump stack n, ahead := none, size := 0 }, ?_, ?_⟩
  · unfold listEnd
    simp [h.stack_eq]
  exact {
    input_eq := h.input_eq
    remaining_eq := h.remaining_eq
    limited := h.limited
    stack_eq := rfl
    room := room_bump.2 (by simpa using hroom)
    ahead_eq := rfl }

end Stream

theorem decodeListSlice_eq {size : Nat} {b : Byte} (elems : Prog (List Value))
    (h : Stream.Cached s .list size b rest stack) :
    ∃ t, Ready t rest (⟨0, size⟩ :: stack) ∧ decodeListSlice elems s =
      ((if size = 0 then pure [] else elems : Prog (List Value)) >>= fun vs => do
        Stream.listEnd
        return vs) t := by
  obtain ⟨t, hlist, hready⟩ := Stream.list_ok h
  refine ⟨t, hready, ?_⟩
  have hcatch : (tryCatch Stream.list fun err => throw (wrapStreamError err) : Prog Nat) s =
      .ok size t := State.tryCatch_of_ok hlist
  unfold decodeListSlice
  rw [State.bind_of_ok hcatch]
  split
  · rfl
  · rfl

/-! ## Errors

`EOL` tells the loop over the elements of a list to stop, so it must come from the end of that list
only. -/

/-- An error other than the two with a meaning for the recursion. -/
def Err.Plain (e : Err) : Prop := e ≠ .eol ∧ e ≠ .outOfFuel

namespace Stream

variable {e : Err}

theorem willRead_error {n : Nat} (h : willRead n s = .error e s') : e.Plain := by
  unfold willRead at h
  dsimp only at h
  repeat' split at h
  all_goals cases h <;> exact ⟨nofun, nofun⟩

theorem readByte_error (h : readByte s = .error e s') : e.Plain := by
  unfold readByte at h
  refine State.bind_error h willRead_error fun u t _ h => ?_
  rw [State.get_bind] at h
  cases hinput : t.input with
  | nil =>
    rw [hinput] at h
    cases h
    exact ⟨nofun, nofun⟩
  | cons b tail =>
    rw [hinput] at h
    cases h

theorem readFull_error {n : Nat} (h : readFull n s = .error e s') : e.Plain := by
  unfold readFull at h
  refine State.bind_error h willRead_error fun u t _ h => ?_
  rw [State.get_bind, State.modify_bind] at h
  split at h
  · cases h
    exact ⟨nofun, nofun⟩
  · cases h

theorem readUint_error {n : Nat} (h : readUint n s = .error e s') : e.Plain := by
  unfold readUint at h
  split at h
  · cases h
  · refine State.bind_error h readByte_error fun u t _ h => ?_
    cases h
  refine State.bind_error h readFull_error fun u t _ h => ?_
  split at h
  · cases h
    exact ⟨nofun, nofun⟩
  · cases h

variable {size : Nat}

theorem readKindSize_error {k k' : Kind} {n : Nat}
    (h : readKindSize k n s = ((k', size, some e), s')) : e.Plain := by
  unfold readKindSize at h
  split at h
  · split at h
    · cases h
      exact ⟨nofun, nofun⟩
    · cases h
  rename_i he
  cases h
  exact readUint_error he

theorem readKind_error {k : Kind} (h : readKind s = ((k, size, some e), s')) : e.Plain := by
  unfold readKind at h
  split at h
  · rename_i he
    cases h
    split
    · exact ⟨nofun, nofun⟩
    · exact readByte_error he
  dsimp only at h
  repeat' split at h
  · cases h
  · cases h
  · exact readKindSize_error h
  · cases h
  · exact readKindSize_error h

theorem checkSize_error (h : s.checkSize size = some e) : e.Plain := by
  unfold checkSize at h
  repeat' split at h
  all_goals cases h <;> exact ⟨nofun, nofun⟩

theorem kind_error (h : Ready s input stack) (hk : kind s = .error e s') :
    e.Plain ∨ e = .eol ∧ s.atEOL = true ∧ s' = { s with kinderr := none } := by
  rw [kind_ready h] at hk
  unfold readAhead at hk
  split at hk
  · rename_i heol
    cases hk
    exact .inr ⟨rfl, heol, rfl⟩
  left
  obtain ⟨⟨⟨k, size, err⟩, t⟩, hread⟩ : ∃ r, readKind { s with kinderr := none } = r := ⟨_, rfl⟩
  simp only [hread, cachedKind] at hk
  split at hk
  · cases hk
  rename_i err' herr
  cases hk
  cases err with
  | some err =>
    cases herr
    exact readKind_error hread
  | none => exact checkSize_error herr

theorem bytes_error {k : Kind} {b : Byte} (h : Cached s k size b rest stack)
    (hb : bytes s = .error e s') : e.Plain := by
  unfold bytes at hb
  rw [State.bind_of_ok h.kind] at hb
  cases k with
  | byte => cases hb
  | string =>
    refine State.bind_error hb readFull_error fun u t _ hb => ?_
    dsimp only at hb
    split at hb
    · cases hb
      exact ⟨nofun, nofun⟩
    · cases hb
  | list =>
    cases hb
    exact ⟨nofun, nofun⟩

theorem listEnd_error (h : listEnd s = .error e s') : e.Plain := by
  unfold listEnd at h
  rw [State.get_bind] at h
  cases hstack : s.stack with
  | nil =>
    rw [hstack] at h
    cases h
    exact ⟨nofun, nofun⟩
  | cons tos stack =>
    rw [hstack] at h
    dsimp only at h
    split at h
    · cases h
      exact ⟨nofun, nofun⟩
    · cases h

end Stream

theorem decodeSliceElems_ne_eol (fuel i : Nat) : decodeSliceElems fuel i s ≠ .error .eol s' := by
  induction fuel generalizing i s with
  | zero => simp [decodeSliceElems]
  | succ fuel ih =>
    intro h
    rw [decodeSliceElems] at h
    dsimp only at h
    split at h
    · split at h
      · cases h
      rename_i hrest
      cases h
      exact ih (i + 1) hrest
    · cases h
    rename_i err t hne hv
    simp only [EStateM.Result.error.injEq] at h
    unfold addErrorContext at h
    split at h
    · cases h.1
    · exact hne h.1

theorem decodeListSlice_error {size : Nat} {b : Byte} {elems : Prog (List Value)} {e : Err}
    (h : Stream.Cached s .list size b rest stack) (he : decodeListSlice elems s = .error e s') :
    e.Plain ∨ ∃ t t', Ready t rest (⟨0, size⟩ :: stack) ∧ elems t = .error e t' := by
  obtain ⟨t, hready, heq⟩ := decodeListSlice_eq elems h
  rw [heq] at he
  refine State.bind_error he (fun he => ?_) fun vs t' _ he => .inl ?_
  · split at he
    · cases he
    · exact .inr ⟨t, s', hready, he⟩
  refine State.bind_error he Stream.listEnd_error fun u t _ he => ?_
  cases he

theorem decodeInterface_error (fuel : Nat) {e : Err} (h : Ready s input stack)
    (he : decodeInterface (fuel + 1) s = .error e s') :
    e.Plain ∨ (e = .eol ∧ s.atEOL = true ∧ s' = { s with kinderr := none }) ∨
      ∃ rest p stack' t t', rest.length < input.length ∧ Ready t rest (p :: stack') ∧
        decodeSliceElems fuel 0 t = .error e t' := by
  rw [decodeInterface] at he
  refine State.bind_error he (fun he => ?_) fun ⟨k, size⟩ t hkind he => ?_
  · obtain hplain | heol := Stream.kind_error h he
    · exact .inl hplain
    · exact .inr (.inl heol)
  obtain ⟨hd, rest, b, hhead, rfl, -, -, hcached⟩ := Stream.kind_sound h hkind
  have hpos := length_pos_iff.2 hhead.ne_nil
  cases k with
  | byte | string =>
    refine State.bind_error he (fun he => .inl (Stream.bytes_error hcached he)) fun u t _ he => ?_
    cases he
  | list =>
    refine State.bind_error he (fun he => ?_) fun u t _ he => ?_
    · obtain hplain | ⟨t, t', hready, he⟩ := decodeListSlice_error hcached he
      · exact .inl hplain
      refine .inr (.inr ⟨rest, _, _, t, t', ?_, hready, he⟩)
      rw [length_append]
      omega
    · cases he

/-! ## Decoding a value -/

theorem enc_byte {b : Byte} (h : b < 0x80) : enc (.bytes [b]) = [b] := by
  rw [enc, encString, if_pos (by bv_omega)]

theorem enc_string {b : List Byte} (h : ¬ (b.length = 1 ∧ b.headD 0 < 128)) :
    enc (.bytes b) = puthead 0x80 0xB7 b.length ++ b := by
  unfold enc encString
  split
  · rename_i x
    have hx : ¬ x ≤ 0x7F := by
      intro hle
      exact h ⟨rfl, by simp only [headD_cons]; bv_omega⟩
    rw [if_neg hx]
    rfl
  · rfl

mutual

/-- **Soundness.** What decoding consumes is the encoding of the value it returns. -/
theorem decodeInterface_sound (fuel : Nat) {s s' : Stream} {input : List Byte}
    {stack : List ListPos} {v : Value} (h : Ready s input stack)
    (hdec : decodeInterface fuel s = .ok v s') :
    ∃ rest, input = enc v ++ rest ∧ payload v < 2 ^ 64 ∧ Room stack (enc v).length ∧
      Ready s' rest (bump stack (enc v).length) := by
  cases fuel with
  | zero => simp [decodeInterface] at hdec
  | succ fuel =>
    rw [decodeInterface, State.bind_eq_ok] at hdec
    obtain ⟨⟨k, size⟩, t, hkind, hdec⟩ := hdec
    obtain ⟨hd, rest, b, hhead, rfl, hroom, htop, hcached⟩ := Stream.kind_sound h hkind
    cases k <;> dsimp only at hdec
    case byte =>
      obtain ⟨hb⟩ := hhead
      rw [State.bind_of_ok (Stream.bytes_byte hcached)] at hdec
      cases hdec
      rw [enc_byte hb]
      exact ⟨rest, rfl, by simp [payload], hroom, { hcached.toAt with ahead_eq := rfl }⟩
    case string =>
      obtain ⟨hlt, rfl⟩ := Stream.head_string_inv hhead
      rw [State.bind_eq_ok] at hdec
      obtain ⟨buf, t', hbytes, hdec⟩ := hdec
      obtain ⟨hfit, hlen, rfl, hcanon, rfl⟩ := (Stream.bytes_string_ok hcached).1 hbytes
      cases hdec
      have htake : (rest.take size).length = size := length_take_of_le hlen
      rw [enc_string (by rw [htake]; exact hcanon), htake, length_append, htake, ← bump_bump]
      refine ⟨rest.drop size, ?_, by rwa [payload, htake], hroom, hcached.toAt.adv hfit⟩
      rw [append_assoc, take_append_drop]
    case list =>
      obtain ⟨hlt, rfl⟩ := Stream.head_list_inv hhead
      rw [State.bind_eq_ok] at hdec
      obtain ⟨vs, t', hlist, hdec⟩ := hdec
      cases hdec
      obtain ⟨t1, hready, heq⟩ := decodeListSlice_eq (decodeSliceElems fuel 0) hcached
      rw [heq, State.bind_eq_ok] at hlist
      obtain ⟨vs', t2, helems, hlist⟩ := hlist
      obtain ⟨rest', rfl, hsize, hready'⟩ : ∃ rest', rest = encs vs' ++ rest' ∧
          (encs vs').length = size ∧
          Ready t2 rest' (⟨size, size⟩ :: bump stack (puthead 0xC0 0xF7 size).length) := by
        split at helems
        · rename_i hzero
          subst hzero
          cases helems
          exact ⟨rest, rfl, rfl, hready⟩
        have hsound := decodeSliceElems_sound fuel 0 hready helems
        simpa only [Nat.zero_add] using hsound
      obtain ⟨t3, hend, hready''⟩ := Stream.listEnd_ok hready' (room_bump.2 hroom)
      rw [State.bind_of_ok hend] at hlist
      cases hlist
      rw [bump_bump] at hready''
      rw [enc, hsize, length_append, hsize]
      exact ⟨rest', by rw [append_assoc], by rwa [payload, hsize], hroom, hready''⟩

theorem decodeSliceElems_sound (fuel i : Nat) {s s' : Stream} {input : List Byte} {p : ListPos}
    {stack : List ListPos} {vs : List Value} (h : Ready s input (p :: stack))
    (hdec : decodeSliceElems fuel i s = .ok vs s') :
    ∃ rest, input = encs vs ++ rest ∧ p.pos + (encs vs).length = p.size ∧
      Ready s' rest (⟨p.size, p.size⟩ :: stack) := by
  cases fuel with
  | zero => simp [decodeSliceElems] at hdec
  | succ fuel =>
    rw [decodeSliceElems] at hdec
    dsimp only at hdec
    split at hdec
    · rename_i v t hv
      obtain ⟨rest, rfl, -, hroom, hready⟩ := decodeInterface_sound fuel h hv
      split at hdec
      · rename_i vs' t' hvs
        cases hdec
        obtain ⟨rest', rfl, hsize, hready'⟩ := decodeSliceElems_sound fuel (i + 1) hready hvs
        refine ⟨rest', by rw [encs, append_assoc], ?_, hready'⟩
        rw [encs, length_append, ← add_assoc]
        exact hsize
      · cases hdec
    · rename_i t hv
      cases fuel with
      | zero => simp [decodeInterface] at hv
      | succ fuel =>
        cases hdec
        obtain hplain | ⟨-, heol, rfl⟩ | ⟨-, -, -, t, t', -, -, he⟩ :=
          decodeInterface_error fuel h hv
        · exact absurd rfl hplain.1
        · have hend : p.pos = p.size := by
            rw [Stream.atEOL, h.stack_eq] at heol
            simpa using heol
          refine ⟨input, rfl, hend, ?_⟩
          obtain ⟨pos, size⟩ := p
          obtain rfl : pos = size := hend
          exact { h with }
        · exact absurd he (decodeSliceElems_ne_eol fuel 0)
    · cases hdec

end

mutual

/-- **Completeness.** The encoding of a value that fits into the enclosing list is decoded to the
value. -/
theorem decodeInterface_complete (v : Value) (fuel : Nat) {s : Stream} {rest : List Byte}
    {stack : List ListPos} (h : Ready s (enc v ++ rest) stack) (hlt : payload v < 2 ^ 64)
    (hroom : Room stack (enc v).length) (hfuel : 2 * (enc v).length + 1 ≤ fuel) :
    ∃ s', decodeInterface fuel s = .ok v s' ∧ Ready s' rest (bump stack (enc v).length) := by
  have hpos := length_pos_iff.2 (enc_ne_nil v)
  obtain ⟨fuel, rfl⟩ : ∃ n, fuel = n + 1 := ⟨fuel - 1, by omega⟩
  rw [decodeInterface]
  cases v with
  | bytes b =>
    by_cases hcanon : b.length = 1 ∧ b.headD 0 < 128
    · obtain ⟨hlen, hhead⟩ := hcanon
      obtain ⟨x, rfl⟩ := length_eq_one_iff.1 hlen
      have hx : x < 0x80 := hhead
      rw [enc_byte hx] at h hroom ⊢
      obtain ⟨t, hkind, hcached⟩ := Stream.kind_complete h (.byte hx) hroom (fun _ => Nat.zero_le _)
      refine ⟨{ t with ahead := none }, ?_, { hcached.toAt with ahead_eq := rfl }⟩
      rw [State.bind_of_ok hkind]
      dsimp only
      rw [State.bind_of_ok (Stream.bytes_byte hcached)]
      rfl
    rw [enc_string hcanon, append_assoc] at h
    rw [enc_string hcanon, length_append] at hroom ⊢
    obtain ⟨t, hkind, hcached⟩ :=
      Stream.kind_complete h (Stream.head_string hlt) hroom (fun _ => by simp)
    have hfit := room_bump.2 hroom
    have htake : (b ++ rest).take b.length = b := take_left
    have hbytes := (Stream.bytes_string_ok hcached).2 ⟨hfit, by simp, htake.symm, hcanon, rfl⟩
    refine ⟨t.adv b.length, ?_, ?_⟩
    · rw [State.bind_of_ok hkind]
      dsimp only
      rw [State.bind_of_ok hbytes]
      rfl
    have hready := hcached.toAt.adv hfit
    rwa [drop_left, bump_bump] at hready
  | list vs =>
    rw [payload] at hlt
    rw [enc, length_append] at hfuel
    rw [enc, append_assoc] at h
    rw [enc, length_append] at hroom ⊢
    obtain ⟨t, hkind, hcached⟩ :=
      Stream.kind_complete h (Stream.head_list hlt) hroom (fun _ => by simp)
    have hfit := room_bump.2 hroom
    obtain ⟨t1, hready, heq⟩ := decodeListSlice_eq (decodeSliceElems fuel 0) hcached
    rw [State.bind_of_ok hkind]
    dsimp only
    obtain ⟨t2, helems, hready'⟩ : ∃ t2, (if (encs vs).length = 0 then pure []
        else decodeSliceElems fuel 0 : Prog (List Value)) t1 = .ok vs t2 ∧
          Ready t2 rest (⟨(encs vs).length, (encs vs).length⟩ ::
            bump stack (puthead 0xC0 0xF7 (encs vs).length).length) := by
      split
      · rename_i hzero
        cases vs with
        | nil => exact ⟨t1, rfl, hready⟩
        | cons v vs =>
          have := length_pos_iff.2 (enc_ne_nil v)
          rw [encs, length_append] at hzero
          omega
      have hhead := length_pos_iff.2 (puthead_ne_nil 0xC0 0xF7 (encs vs).length)
      exact decodeSliceElems_complete vs fuel 0 hready hlt (Nat.zero_add _) (by omega)
    obtain ⟨t3, hend, hready''⟩ := Stream.listEnd_ok hready' hfit
    rw [State.bind_of_ok helems, State.bind_of_ok hend, State.pure_apply] at heq
    rw [bump_bump] at hready''
    exact ⟨t3, by rw [State.bind_of_ok heq]; rfl, hready''⟩

theorem decodeSliceElems_complete (vs : List Value) (fuel i : Nat) {s : Stream} {rest : List Byte}
    {p : ListPos} {stack : List ListPos} (h : Ready s (encs vs ++ rest) (p :: stack))
    (hlt : (encs vs).length < 2 ^ 64) (hsize : p.pos + (encs vs).length = p.size)
    (hfuel : 2 * (encs vs).length + 2 ≤ fuel) :
    ∃ s', decodeSliceElems fuel i s = .ok vs s' ∧ Ready s' rest (⟨p.size, p.size⟩ :: stack) := by
  obtain ⟨fuel, rfl⟩ : ∃ n, fuel = n + 1 := ⟨fuel - 1, by omega⟩
  rw [decodeSliceElems]
  cases vs with
  | nil =>
    -- At the end of the list `Kind` answers `EOL`, which ends the loop.
    obtain ⟨pos, size⟩ := p
    obtain rfl : pos = size := by simpa [encs] using hsize
    obtain ⟨fuel, rfl⟩ : ∃ n, fuel = n + 1 := ⟨fuel - 1, by omega⟩
    have heol : s.kind = .error .eol { s with kinderr := none } := by
      rw [Stream.kind_ready h, Stream.readAhead, if_pos]
      simp [Stream.atEOL, h.stack_eq]
    have hdec : decodeInterface (fuel + 1) s = .error .eol { s with kinderr := none } := by
      rw [decodeInterface, State.bind_of_error heol]
    exact ⟨{ s with kinderr := none }, by simp only [hdec], { h with }⟩
  | cons v vs =>
    have hle := payload_le v
    have hpos := length_pos_iff.2 (enc_ne_nil v)
    rw [encs, length_append] at hlt hsize hfuel
    rw [encs, append_assoc] at h
    obtain ⟨t, hdec, hready⟩ := decodeInterface_complete v fuel h (by omega)
      (by simp only [Room]; omega) (by omega)
    obtain ⟨t', helems, hready'⟩ := decodeSliceElems_complete vs fuel (i + 1) hready (by omega)
      (by simp only; omega) (by omega)
    exact ⟨t', by simp only [hdec, helems], hready'⟩

end

mutual

theorem decodeInterface_ne_outOfFuel (fuel : Nat) {s s' : Stream} {input : List Byte}
    {stack : List ListPos} (h : Ready s input stack) (hfuel : 2 * input.length + 1 ≤ fuel) :
    decodeInterface fuel s ≠ .error .outOfFuel s' := by
  intro he
  cases fuel with
  | zero => omega
  | succ fuel =>
    obtain hplain | ⟨heol, -⟩ | ⟨rest, p, stack', t, t', hlen, hready, he⟩ :=
      decodeInterface_error fuel h he
    · exact hplain.2 rfl
    · cases heol
    · exact decodeSliceElems_ne_outOfFuel fuel 0 hready (by omega) he

theorem decodeSliceElems_ne_outOfFuel (fuel i : Nat) {s s' : Stream} {input : List Byte}
    {stack : List ListPos} (h : Ready s input stack) (hfuel : 2 * input.length + 2 ≤ fuel) :
    decodeSliceElems fuel i s ≠ .error .outOfFuel s' := by
  intro he
  cases fuel with
  | zero => omega
  | succ fuel =>
    rw [decodeSliceElems] at he
    dsimp only at he
    split at he
    · rename_i v t hv
      obtain ⟨rest, rfl, -, -, hready⟩ := decodeInterface_sound fuel h hv
      have hpos := length_pos_iff.2 (enc_ne_nil v)
      rw [length_append] at hfuel
      split at he
      · cases he
      rename_i hrest
      cases he
      exact decodeSliceElems_ne_outOfFuel fuel (i + 1) hready (by omega) hrest
    · cases he
    rename_i err t hne hv
    simp only [EStateM.Result.error.injEq] at he
    unfold addErrorContext at he
    split at he
    · cases he.1
    rw [he.1] at hv
    exact decodeInterface_ne_outOfFuel fuel h (by omega) hv

end

/-! ## The codec -/

theorem ready_init (b : List Byte) : Ready ⟨b, b.length, true, none, 0, 0, none, []⟩ b [] :=
  ⟨⟨rfl, rfl, rfl, rfl, trivial⟩, rfl⟩

theorem Stream.decode_eq_ok {fuel : Nat} {v : Value} :
    Stream.decode fuel s = .ok v s' ↔ decodeInterface fuel s = .ok v s' := by
  unfold decode
  split
  · rename_i h
    simp [h]
  · rfl

/-- Decoding terminates on every input: the recursion is never cut off. -/
theorem decodeBytes_ne_outOfFuel (b : List Byte) : decodeBytes b ≠ .error .outOfFuel := by
  intro h
  unfold decodeBytes at h
  split at h
  · rename_i err t he
    cases h
    unfold Stream.decode at he
    split at he
    · cases he
    · exact decodeInterface_ne_outOfFuel _ (ready_init b) (le_refl _) he
  · split at h <;> cases h

/-- **RLP is a bijection between values and accepted encodings.** A byte string decodes to a value
exactly if it is the encoding of the value; the payload of every byte slice is shorter than `2 ^ 64`
bytes. -/
theorem decodeBytes_eq_ok_iff (b : List Byte) (v : Value) :
    decodeBytes b = .ok v ↔ payload v < 2 ^ 64 ∧ encodeToBytes v = b := by
  unfold decodeBytes
  constructor
  · intro h
    split at h
    · cases h
    rename_i v' t hdec
    split at h
    · cases h
    rename_i hlen
    cases h
    obtain ⟨rest, hb, hlt, -, hready⟩ :=
      decodeInterface_sound _ (ready_init b) (Stream.decode_eq_ok.1 hdec)
    have hrest : rest = [] := by
      rw [hready.input_eq] at hlen
      exact length_eq_zero_iff.1 (by omega)
    rw [hrest, append_nil] at hb
    exact ⟨hlt, by rw [encodeToBytes_of_payload hlt, hb]⟩
  rintro ⟨hlt, rfl⟩
  rw [encodeToBytes_of_payload hlt]
  have hready : Ready _ (enc v ++ []) [] := (append_nil (enc v)).symm ▸ ready_init (enc v)
  obtain ⟨t, hdec, hready'⟩ := decodeInterface_complete v (2 * (enc v).length + 1) hready hlt
    trivial (le_refl _)
  rw [append_nil] at hdec
  rw [Stream.decode_eq_ok.2 hdec]
  simp [hready'.input_eq]

end Virbicoin.Rlp
