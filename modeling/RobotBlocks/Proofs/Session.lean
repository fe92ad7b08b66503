import Mathlib
import RobotBlocks.Proofs.Layout

/-! Operations on a buffer and the slots reserved in it. Slots are resolved at any time and in any
order while bytes are written behind them. Here stands what one operation does to slots and bytes,
and what follows for any number of them. -/

namespace RobotBlocks

/-- A slot takes two bytes. -/
def Slot.Covers (slot : Slot) (i : Nat) : Prop := slot.offset ≤ i ∧ i < slot.offset + 2

/-- Two bytes, the high one first. -/
def bigEndian (n : Nat) : List UInt8 := [(n / 256).toUInt8, (n % 256).toUInt8]

theorem wordBytes_addressWord (n : Nat) : wordBytes (addressWord n) = bigEndian (min n 65535) := by
  have hsmall : min n 65535 < 65536 := by omega
  have hword : (addressWord n).toNat = min n 65535 := by
    simp [addressWord, maxProgram, Nat.mod_eq_of_lt hsmall]
  rw [wordBytes, hword, bigEndian]

namespace CodeBuffer

/-- What can be written at the end of a buffer. A number is rounded to an operand of its kind. -/
inductive Emission where
  | byte (value : UInt8)
  | bytes (values : List UInt8)
  | opcode (op : Opcode)
  | operand (value : Operand)
  | instruction (op : Opcode) (operands : List Operand)
  | word (value : UInt16)
  | address (value : Nat)
  | constant (value : Binary64)
  | speed (value : Binary64)
  | percent (value : Binary64)
  | millis (seconds : Binary64)
  deriving DecidableEq

namespace Emission

def emit : Emission → CodeBuffer → CodeBuffer
  | byte value, b => b.emit value
  | bytes values, b => b.emitAll values
  | opcode op, b => b.emitOpcode op
  | operand value, b => b.emitOperand value
  | instruction op operands, b => b.emitInstruction op operands
  | word value, b => b.emitWord value
  | address value, b => b.emitAddress value
  | constant value, b => b.emitOperand (.word value.toWord)
  | speed value, b => b.emitOperand (.speed value.toSpeed)
  | percent value, b => b.emitOperand (.byte value.toPercent)
  | millis seconds, b => b.emitOperand (.millis seconds.toMillis)

def encode : Emission → List UInt8
  | byte value => [value]
  | bytes values => values
  | opcode op => [op.byte]
  | operand value => value.encode
  | instruction op operands => op.byte :: operands.flatMap Operand.encode
  | word value => bigEndian value.toNat
  | address value => bigEndian (min value 65535)
  | constant value => bigEndian value.toWord.toNat
  | speed value => [value.toSpeed.toUInt8]
  | percent value => [value.toPercent]
  | millis seconds => bigEndian seconds.toMillis.toNat

theorem emit_eq (e : Emission) (b : CodeBuffer) : e.emit b = b.emitAll e.encode := by
  cases e with
  | address value => rw [emit, emitAddress_eq, wordBytes_addressWord, encode]
  | _ => rfl

end Emission

/-- An operation on a buffer. A slot is known by its token, the number of slots before it. -/
inductive Operation where
  | emit (e : Emission)
  | reserve
  | resolve (token address : Nat)
  | resolveHere (token : Nat)
  deriving DecidableEq

namespace Operation

def isReserve : Operation → Bool
  | reserve => true
  | emit _ | resolve _ _ | resolveHere _ => false

/-- Resolves a slot to an address that is given, wherever the buffer ends. -/
def isResolve : Operation → Bool
  | resolve _ _ => true
  | emit _ | reserve | resolveHere _ => false

/-- The token that is spent. -/
def token? : Operation → Option Nat
  | resolve token _ | resolveHere token => some token
  | emit _ | reserve => none

/-- The number of bytes that are added to a buffer. -/
def size : Operation → Nat
  | emit e => e.encode.length
  | reserve => 2
  | resolve _ _ | resolveHere _ => 0

end Operation

/-- The number of tokens that are issued. -/
def issued (ops : List Operation) : Nat := ops.countP Operation.isReserve

/-- The tokens whose slots are resolved. -/
def resolved (ops : List Operation) : List Nat := ops.filterMap Operation.token?

/-- No token is spent twice, and none before it is issued. -/
structure Linear (ops : List Operation) : Prop where
  once : (resolved ops).Nodup
  later : ∀ n : Fin ops.length, ∀ token ∈ (ops.get n).token?, token < issued (ops.take n)

/-- A buffer and the slots reserved in it, by their tokens. -/
structure Session where
  buffer : CodeBuffer
  slots : List Slot

namespace Session

def new : Session := ⟨empty, []⟩

/-- One operation. A token that was never issued does nothing. -/
def perform (s : Session) : Operation → Session
  | .emit e => { s with buffer := e.emit s.buffer }
  | .reserve => ⟨s.buffer.reserve.2, s.slots ++ [s.buffer.reserve.1]⟩
  | .resolve token address =>
    { s with buffer := s.slots[token]?.elim s.buffer (s.buffer.resolve · address) }
  | .resolveHere token => { s with buffer := s.slots[token]?.elim s.buffer s.buffer.resolveHere }

/-- An operation on a slot finds it within the buffer and counted as unresolved. -/
def Allows (s : Session) (op : Operation) : Prop :=
  ∀ token ∈ op.token?, ∃ slot, s.slots[token]? = some slot ∧
    slot.offset + 2 ≤ s.buffer.code.size ∧ 0 < s.buffer.unresolved

end Session

def performAll (s : Session) (ops : List Operation) : Session := ops.foldl Session.perform s

/-- Operations on a new buffer. -/
def run (ops : List Operation) : Session := performAll .new ops

@[simp] theorem issued_nil : issued [] = 0 := rfl

@[simp] theorem issued_append (xs ys : List Operation) :
    issued (xs ++ ys) = issued xs + issued ys := List.countP_append

theorem issued_cons (op : Operation) (ops : List Operation) :
    issued (op :: ops) = issued [op] + issued ops := issued_append [op] ops

@[simp] theorem issued_emit (e : Emission) : issued [.emit e] = 0 := rfl

@[simp] theorem issued_reserve : issued [.reserve] = 1 := rfl

@[simp] theorem issued_resolve (token address : Nat) : issued [.resolve token address] = 0 := rfl

@[simp] theorem issued_resolveHere (token : Nat) : issued [.resolveHere token] = 0 := rfl

@[simp] theorem resolved_append (xs ys : List Operation) :
    resolved (xs ++ ys) = resolved xs ++ resolved ys := List.filterMap_append

theorem resolved_singleton (op : Operation) : resolved [op] = op.token?.toList := by
  cases op <;> rfl

theorem mem_resolved_singleton {op : Operation} {token : Nat} :
    token ∈ resolved [op] ↔ token ∈ op.token? := by
  rw [resolved_singleton, Option.mem_toList, Option.mem_def]

theorem exists_reserve {ops : List Operation} {token : Nat} (h : token < issued ops) :
    ∃ before after, ops = before ++ .reserve :: after ∧ issued before = token := by
  induction ops generalizing token with
  | nil => simp at h
  | cons op ops ih =>
    rw [issued_cons] at h
    by_cases hfirst : token < issued [op]
    · cases op with
      | reserve => exact ⟨[], ops, rfl, by rw [issued_reserve] at hfirst; simp; omega⟩
      | _ => simp at hfirst
    · obtain ⟨before, after, rfl, hbefore⟩ := ih (show token - issued [op] < issued ops by omega)
      exact ⟨op :: before, after, rfl, by rw [issued_cons, hbefore]; omega⟩

namespace Linear

variable {ops before after : List Operation} {op : Operation} {token : Nat}

theorem lt_issued (h : Linear (before ++ op :: after)) (ht : token ∈ op.token?) :
    token < issued before := by
  have hlater := h.later ⟨before.length, by simp⟩ token
  simp only [List.get_eq_getElem, List.take_left] at hlater
  exact hlater (by simpa using ht)

theorem of_append (h : Linear (before ++ after)) : Linear before := by
  refine ⟨?_, fun n token ht => ?_⟩
  · have honce := h.once
    rw [resolved_append] at honce
    exact honce.of_append_left
  · have hlater := h.later ⟨n, by rw [List.length_append]; omega⟩ token
    rw [List.take_append_of_le_length n.isLt.le] at hlater
    apply hlater
    simpa using ht

theorem lt_of_mem (h : Linear ops) (ht : token ∈ resolved ops) : token < issued ops := by
  obtain ⟨op, hop, htoken⟩ := List.mem_filterMap.mp ht
  obtain ⟨before, after, rfl⟩ := List.append_of_mem hop
  have hlt := h.lt_issued htoken
  rw [issued_append]
  omega

theorem notMem (h : Linear (ops ++ [op])) (ht : token ∈ op.token?) : token ∉ resolved ops := by
  have honce := h.once
  rw [resolved_append, List.nodup_append] at honce
  intro hmem
  exact honce.2.2 token hmem token (mem_resolved_singleton.mpr ht) rfl

theorem length_resolved_le (h : Linear ops) : (resolved ops).length ≤ issued ops := by
  have hsub : resolved ops ⊆ List.range (issued ops) := fun token ht =>
    List.mem_range.mpr (h.lt_of_mem ht)
  simpa using (List.subperm_of_subset h.once hsub).length_le

end Linear

namespace Session

variable (s : Session)

theorem perform_emit (e : Emission) :
    s.perform (.emit e) = ⟨s.buffer.emitAll e.encode, s.slots⟩ := by
  rw [perform, e.emit_eq]

theorem perform_resolveHere (token : Nat) :
    s.perform (.resolveHere token) = s.perform (.resolve token s.buffer.pc) := rfl

theorem perform_resolve {token : Nat} {slot : Slot} (h : s.slots[token]? = some slot)
    (address : Nat) :
    s.perform (.resolve token address) = ⟨s.buffer.resolve slot address, s.slots⟩ := by
  rw [perform, h, Option.elim_some]

@[simp] theorem pc_perform_resolve (token address : Nat) :
    (s.perform (.resolve token address)).buffer.pc = s.buffer.pc := by
  rw [perform]
  cases s.slots[token]? with
  | none => rfl
  | some slot => exact s.buffer.pc_resolve slot address

theorem pc_perform (op : Operation) : (s.perform op).buffer.pc = s.buffer.pc + op.size := by
  cases op with
  | emit e => rw [perform_emit, pc_emitAll, Operation.size]
  | reserve => exact s.buffer.pc_reserve
  | resolve token address => exact s.pc_perform_resolve token address
  | resolveHere token => exact s.pc_perform_resolve token s.buffer.pc

theorem slots_isPrefix_perform (op : Operation) : s.slots <+: (s.perform op).slots := by
  cases op with
  | reserve => exact List.prefix_append _ _
  | _ => exact List.prefix_refl _

/-- The slots lie in the buffer, one behind the other. -/
structure Ordered (s : Session) : Prop where
  apart : s.slots.Pairwise fun a b => a.offset + 2 ≤ b.offset
  within : ∀ slot ∈ s.slots, slot.offset + 2 ≤ s.buffer.pc

variable {s}

theorem Ordered.perform (h : s.Ordered) (op : Operation) : (s.perform op).Ordered := by
  have hpc := s.pc_perform op
  have hold : ∀ slot ∈ s.slots, slot.offset + 2 ≤ (s.perform op).buffer.pc := fun slot hslot =>
    (h.within slot hslot).trans (by omega)
  cases op with
  | reserve =>
    refine ⟨List.pairwise_append.mpr ⟨h.apart, List.pairwise_singleton _ _, ?_⟩, ?_⟩
    · intro a ha b hb
      rw [List.mem_singleton.mp hb]
      exact h.within a ha
    · intro slot hslot
      obtain hslot | hslot := List.mem_append.mp hslot
      · exact hold slot hslot
      · rw [List.mem_singleton.mp hslot]
        exact s.buffer.pc_reserve.ge
  | emit e => exact ⟨h.apart, hold⟩
  | resolve token address => exact ⟨h.apart, hold⟩
  | resolveHere token => exact ⟨h.apart, hold⟩

theorem getElem?_perform_resolve {token i : Nat}
    (h : ∀ slot ∈ s.slots[token]?, ¬ slot.Covers i) (address : Nat) :
    (s.perform (.resolve token address)).buffer.code[i]? = s.buffer.code[i]? := by
  cases hslot : s.slots[token]? with
  | none => rw [Session.perform, hslot, Option.elim_none]
  | some slot =>
    have houtside : slot.offset ≠ i ∧ slot.offset + 1 ≠ i := by
      have hcovers := h slot hslot
      rw [Slot.Covers] at hcovers
      omega
    rw [s.perform_resolve hslot, resolve]
    simp only [Array.getElem?_setIfInBounds, houtside.1, houtside.2, if_false]

/-- An operation changes no byte outside the slot that it resolves. -/
theorem getElem?_perform {op : Operation} {i : Nat} (hi : i < s.buffer.pc)
    (h : ∀ token ∈ op.token?, ∀ slot ∈ s.slots[token]?, ¬ slot.Covers i) :
    (s.perform op).buffer.code[i]? = s.buffer.code[i]? := by
  cases op with
  | emit e =>
    rw [s.perform_emit, emitAll_eq]
    exact Array.getElem?_append_left hi
  | reserve =>
    rw [pc] at hi
    simp [perform, CodeBuffer.reserve, Array.getElem?_push, hi.ne, (Nat.lt_succ_of_lt hi).ne]
  | resolve token address => exact getElem?_perform_resolve (h token rfl) address
  | resolveHere token => exact getElem?_perform_resolve (h token rfl) s.buffer.pc

end Session

theorem performAll_append (s : Session) (xs ys : List Operation) :
    performAll s (xs ++ ys) = performAll (performAll s xs) ys := List.foldl_append

theorem run_concat (ops : List Operation) (op : Operation) :
    run (ops ++ [op]) = (run ops).perform op := performAll_append _ ops [op]

/-- A token keeps its slot. -/
theorem getElem?_slots_performAll {s : Session} {token : Nat} {slot : Slot}
    (h : s.slots[token]? = some slot) (ops : List Operation) :
    (performAll s ops).slots[token]? = some slot := by
  induction ops generalizing s with
  | nil => exact h
  | cons op ops ih =>
    obtain ⟨more, hmore⟩ := s.slots_isPrefix_perform op
    obtain ⟨hlt, -⟩ := List.getElem?_eq_some_iff.mp h
    apply ih
    rw [← hmore, List.getElem?_append_left hlt, h]

/-- A byte that no resolved slot covers stays as it was written. -/
theorem getElem?_performAll {s : Session} {ops : List Operation} {i : Nat} (hi : i < s.buffer.pc)
    (h : ∀ token ∈ resolved ops, ∀ slot ∈ (performAll s ops).slots[token]?, ¬ slot.Covers i) :
    (performAll s ops).buffer.code[i]? = s.buffer.code[i]? := by
  induction ops generalizing s with
  | nil => rfl
  | cons op ops ih =>
    have hhead : (s.perform op).buffer.code[i]? = s.buffer.code[i]? := by
      refine Session.getElem?_perform hi fun token ht slot hslot => h token ?_ slot ?_
      · exact List.mem_filterMap.mpr ⟨op, List.mem_cons_self, ht⟩
      · exact getElem?_slots_performAll hslot (op :: ops)
    have hpc := s.pc_perform op
    rw [← hhead]
    refine ih (by omega) fun token ht => h token ?_
    obtain ⟨other, hother, htoken⟩ := List.mem_filterMap.mp ht
    exact List.mem_filterMap.mpr ⟨other, List.mem_cons_of_mem op hother, htoken⟩

theorem ordered_run (ops : List Operation) : (run ops).Ordered := by
  induction ops using List.reverseRecOn with
  | nil => exact ⟨List.Pairwise.nil, fun slot hslot => absurd hslot List.not_mem_nil⟩
  | append_singleton ops op ih =>
    rw [run_concat]
    exact ih.perform op

theorem length_slots_run (ops : List Operation) : (run ops).slots.length = issued ops := by
  induction ops using List.reverseRecOn with
  | nil => rfl
  | append_singleton ops op ih =>
    rw [run_concat, issued_append, ← ih]
    cases op with
    | reserve => exact List.length_append
    | _ => rfl

/-- The slot of a token starts where its reservation found the end of the buffer. -/
theorem getElem?_slots_run (before after : List Operation) :
    (run (before ++ .reserve :: after)).slots[issued before]? = some ⟨(run before).buffer.pc⟩ := by
  have hreserve : (run (before ++ [.reserve])).slots[issued before]? =
      some ⟨(run before).buffer.pc⟩ := by
    rw [run_concat, ← length_slots_run]
    exact List.getElem?_concat_length
  rw [List.append_cons, run, performAll_append]
  exact getElem?_slots_performAll hreserve after

namespace Linear

variable {ops before after : List Operation} {op : Operation} {token : Nat}

theorem exists_slot (h : Linear (before ++ op :: after)) (ht : token ∈ op.token?) :
    ∃ slot, (run before).slots[token]? = some slot := by
  have hlt := h.lt_issued ht
  rw [← length_slots_run] at hlt
  exact ⟨_, List.getElem?_eq_getElem hlt⟩

/-- Fewer tokens are spent than issued as long as one more is to be spent. -/
theorem length_resolved_lt (h : Linear (ops ++ [op])) (ht : token ∈ op.token?) :
    (resolved ops).length < issued ops := by
  have hle := h.length_resolved_le
  cases op with
  | emit e => cases ht
  | reserve => cases ht
  | resolve token address => simpa [resolved_singleton, Operation.token?] using hle
  | resolveHere token => simpa [resolved_singleton, Operation.token?] using hle

/-- Resolving a slot takes one from a count that is not zero. -/
theorem unresolved_resolve (h : Linear (ops ++ [op])) (ht : token ∈ op.token?)
    (hops : (run ops).buffer.unresolved + (resolved ops).length = issued ops) (address : Nat) :
    ((run ops).perform (.resolve token address)).buffer.unresolved + 1 =
      (run ops).buffer.unresolved := by
  obtain ⟨slot, hslot⟩ := h.exists_slot ht
  have hlt := h.length_resolved_lt ht
  rw [(run ops).perform_resolve hslot, resolve]
  show (run ops).buffer.unresolved - 1 + 1 = _
  omega

theorem unresolved_run (h : Linear ops) :
    (run ops).buffer.unresolved + (resolved ops).length = issued ops := by
  induction ops using List.reverseRecOn with
  | nil => rfl
  | append_singleton ops op ih =>
    have hops := ih h.of_append
    rw [run_concat, resolved_append, issued_append, List.length_append, resolved_singleton]
    cases op with
    | emit e => simpa [Session.perform_emit, Operation.token?] using hops
    | reserve =>
      simp only [Session.perform, unresolved_reserve, Operation.token?, issued_reserve,
        Option.toList_none, List.length_nil]
      omega
    | resolve token address =>
      have hone := h.unresolved_resolve rfl hops address
      simp only [Operation.token?, issued_resolve, Option.toList_some, List.length_singleton]
      omega
    | resolveHere token =>
      have hone := h.unresolved_resolve rfl hops (run ops).buffer.pc
      rw [← Session.perform_resolveHere] at hone
      simp only [Operation.token?, issued_resolveHere, Option.toList_some, List.length_singleton]
      omega

theorem allows (h : Linear (before ++ op :: after)) : (run before).Allows op := by
  intro token ht
  obtain ⟨slot, hslot⟩ := h.exists_slot ht
  have hop : Linear (before ++ [op]) := by
    rw [List.append_cons] at h
    exact h.of_append
  have hlt := hop.length_resolved_lt ht
  have hcount := hop.of_append.unresolved_run
  exact ⟨slot, hslot, (ordered_run before).within slot (List.mem_of_getElem? hslot), by omega⟩

end Linear

end CodeBuffer

end RobotBlocks
