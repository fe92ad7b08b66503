import Mathlib
import RobotBlocks.Proofs.Session

/-! The code in a buffer whose slots are resolved at any time and in any order. The main result says
what the buffer holds then: what each operation wrote, in order, and in every slot the address that
it was pointed at. -/

namespace RobotBlocks.CodeBuffer

/-- A token with the address that its slot is pointed at. -/
abbrev Binding := Σ _ : Nat, Nat

/-- What an operation binds in a buffer that ends at an offset. -/
def Operation.binding? (here : Nat) : Operation → Option Binding
  | resolve token address => some ⟨token, address⟩
  | resolveHere token => some ⟨token, here⟩
  | emit _ | reserve => none

def bindings (s : Session) : List Operation → List Binding
  | [] => []
  | op :: ops => (op.binding? s.buffer.pc).toList ++ bindings (s.perform op) ops

/-- The address that operations on a new buffer point a slot at. -/
def target (ops : List Operation) (token : Nat) : Option Nat :=
  (bindings .new ops).dlookup token

/-- What a slot holds: zeros until it is pointed at an address. -/
def slotBytes (target : Option Nat) : List UInt8 :=
  target.elim [0, 0] fun address => bigEndian (min address 65535)

/-- What operations write if each slot holds its address at once. Tokens count on from the first. -/
def image (target : Nat → Option Nat) : Nat → List Operation → List UInt8
  | _, [] => []
  | token, .emit e :: ops => e.encode ++ image target token ops
  | token, .reserve :: ops => slotBytes (target token) ++ image target (token + 1) ops
  | token, .resolve _ _ :: ops => image target token ops
  | token, .resolveHere _ :: ops => image target token ops

/-- The same operations, in the same order except for slots resolved to given addresses. -/
def Rearranged (ops ops' : List Operation) : Prop :=
  ops'.Perm ops ∧ ops'.filter (!·.isResolve) = ops.filter (!·.isResolve)

@[simp] theorem length_slotBytes (target : Option Nat) : (slotBytes target).length = 2 := by
  cases target <;> rfl

theorem length_image_singleton (f : Nat → Option Nat) (token : Nat) (op : Operation) :
    (image f token [op]).length = op.size := by
  cases op <;> simp [image, Operation.size]

theorem image_append (f : Nat → Option Nat) (token : Nat) (xs ys : List Operation) :
    image f token (xs ++ ys) = image f token xs ++ image f (token + issued xs) ys := by
  induction xs generalizing token with
  | nil => rfl
  | cons op xs ih =>
    rw [issued_cons]
    cases op <;> simp [image, ih, Nat.add_assoc]

theorem image_congr {f g : Nat → Option Nat} {token : Nat} {ops : List Operation}
    (h : ∀ n, token ≤ n → n < token + issued ops → f n = g n) :
    image f token ops = image g token ops := by
  induction ops generalizing token with
  | nil => rfl
  | cons op ops ih =>
    rw [issued_cons] at h
    cases op with
    | reserve =>
      rw [issued_reserve] at h
      rw [image, image, h token le_rfl (by omega), ih fun n hn hlt => h n (by omega) (by omega)]
    | emit e => rw [image, image, ih fun n hn hlt => h n hn (by simpa using hlt)]
    | resolve k address => exact ih fun n hn hlt => h n hn (by simpa using hlt)
    | resolveHere k => exact ih fun n hn hlt => h n hn (by simpa using hlt)

/-- The buffer grows by what is written, whatever the slots hold. -/
theorem pc_run (f : Nat → Option Nat) (ops : List Operation) :
    (run ops).buffer.pc = (image f 0 ops).length := by
  induction ops using List.reverseRecOn with
  | nil => rfl
  | append_singleton ops op ih =>
    rw [run_concat, Session.pc_perform, image_append, List.length_append, ih,
      length_image_singleton]

/-- Where a slot stands in what is written. -/
theorem exists_image_eq {ops : List Operation} {token : Nat} {slot : Slot}
    (h : (run ops).slots[token]? = some slot) : ∃ before after,
      issued before = token ∧ slot.offset = (run before).buffer.pc ∧ ∀ f,
        image f 0 ops = image f 0 before ++ slotBytes (f token) ++ image f (token + 1) after := by
  obtain ⟨hlt, -⟩ := List.getElem?_eq_some_iff.mp h
  rw [length_slots_run] at hlt
  obtain ⟨before, after, rfl, rfl⟩ := exists_reserve hlt
  rw [getElem?_slots_run, Option.some.injEq] at h
  refine ⟨before, after, rfl, by rw [← h], fun f => ?_⟩
  rw [image_append, Nat.zero_add, image, List.append_assoc]

theorem toList_resolve {b : CodeBuffer} {slot : Slot} {front old back : List UInt8}
    (hcode : b.code.toList = front ++ old ++ back) (hold : old.length = 2)
    (hslot : slot.offset = front.length) (address : Nat) :
    (b.resolve slot address).code.toList = front ++ slotBytes (some address) ++ back := by
  obtain ⟨high, low, rfl⟩ := List.length_eq_two.mp hold
  have hbytes : slotBytes (some address) = wordBytes (addressWord address) :=
    (wordBytes_addressWord address).symm
  rw [hbytes, wordBytes, resolve]
  simp [hcode, hslot]

/-- Resolving a slot gives the code that is written if its address is known. -/
theorem image_resolve {ops : List Operation} {f : Nat → Option Nat} {token : Nat} {slot : Slot}
    (hcode : (run ops).buffer.code.toList = image f 0 ops)
    (hslot : (run ops).slots[token]? = some slot) (address : Nat) :
    ((run ops).buffer.resolve slot address).code.toList =
      image (Function.update f token (some address)) 0 ops := by
  obtain ⟨before, after, hbefore, hoffset, himage⟩ := exists_image_eq hslot
  rw [himage] at hcode ⊢
  rw [pc_run f] at hoffset
  rw [toList_resolve hcode (length_slotBytes _) hoffset, Function.update_self]
  -- the other slots have smaller tokens before this one and greater tokens behind it
  congr 1
  · congr 1
    exact image_congr fun n _ hn => (Function.update_of_ne (by omega) _ f).symm
  · exact image_congr fun n hn _ => (Function.update_of_ne (by omega) _ f).symm

theorem slot_holds {ops : List Operation} {f : Nat → Option Nat} {token : Nat} {slot : Slot}
    (hslot : (run ops).slots[token]? = some slot) :
    ((image f 0 ops).drop slot.offset).take 2 = slotBytes (f token) := by
  obtain ⟨before, after, -, hoffset, himage⟩ := exists_image_eq hslot
  rw [himage, hoffset, pc_run f, List.append_assoc, List.drop_left]
  exact List.take_left' (length_slotBytes _)

theorem bindings_append (s : Session) (xs ys : List Operation) :
    bindings s (xs ++ ys) = bindings s xs ++ bindings (performAll s xs) ys := by
  induction xs generalizing s with
  | nil => rfl
  | cons op xs ih =>
    rw [List.cons_append, bindings, bindings, ih, List.append_assoc]
    rfl

theorem keys_bindings (s : Session) (ops : List Operation) :
    (bindings s ops).keys = resolved ops := by
  induction ops generalizing s with
  | nil => rfl
  | cons op ops ih =>
    rw [bindings, List.keys, List.map_append, ← List.keys, ih]
    cases op <;> rfl

theorem Linear.nodupKeys {ops : List Operation} (h : Linear ops) (s : Session) :
    (bindings s ops).NodupKeys := by
  rw [List.NodupKeys, keys_bindings]
  exact h.once

theorem target_eq_none {ops : List Operation} {token : Nat} (h : token ∉ resolved ops) :
    target ops token = none := by
  rw [target, List.dlookup_eq_none, keys_bindings]
  exact h

theorem target_concat (ops : List Operation) (op : Operation) (token : Nat) :
    target (ops ++ [op]) token =
      (target ops token).or ((op.binding? (run ops).buffer.pc).toList.dlookup token) := by
  rw [target, bindings_append, List.dlookup_append, bindings, bindings, List.append_nil]
  rfl

theorem target_resolve {ops : List Operation} {token : Nat} (h : token ∉ resolved ops)
    (address : Nat) : target (ops ++ [.resolve token address]) =
      Function.update (target ops) token (some address) := by
  funext n
  rw [target_concat]
  by_cases hn : n = token
  · subst hn
    rw [target_eq_none h, Function.update_self, Option.none_or, Operation.binding?,
      Option.toList_some, List.dlookup_cons_eq]
  · rw [Function.update_of_ne hn]
    have hother : ([⟨token, address⟩] : List Binding).dlookup n = none := by
      rw [List.dlookup_eq_none]
      simpa using hn
    exact (congrArg _ hother).trans Option.or_none

theorem target_resolveHere (ops : List Operation) (token : Nat) :
    target (ops ++ [.resolveHere token]) =
      target (ops ++ [.resolve token (run ops).buffer.pc]) := by
  funext n
  rw [target_concat, target_concat]
  rfl

theorem target_of_token?_eq_none {op : Operation} (ops : List Operation) (h : op.token? = none) :
    target (ops ++ [op]) = target ops := by
  funext n
  rw [target_concat]
  cases op with
  | emit e => exact Option.or_none
  | reserve => exact Option.or_none
  | resolve token address => cases h
  | resolveHere token => cases h

theorem Linear.code_resolve {ops : List Operation} {op : Operation} {token : Nat}
    (h : Linear (ops ++ [op])) (ht : token ∈ op.token?)
    (hops : (run ops).buffer.code.toList = image (target ops) 0 ops) (address : Nat) :
    ((run ops).perform (.resolve token address)).buffer.code.toList =
      image (target (ops ++ [.resolve token address])) 0 ops := by
  obtain ⟨slot, hslot⟩ := h.exists_slot ht
  rw [(run ops).perform_resolve hslot, target_resolve (h.notMem ht)]
  exact image_resolve hops hslot address

theorem code_run {ops : List Operation} (h : Linear ops) :
    (run ops).buffer.code.toList = image (target ops) 0 ops := by
  induction ops using List.reverseRecOn with
  | nil => rfl
  | append_singleton ops op ih =>
    have hops := ih h.of_append
    rw [run_concat, image_append, Nat.zero_add]
    cases op with
    | emit e =>
      rw [target_of_token?_eq_none ops rfl, ← hops, Session.perform_emit, emitAll_eq, image, image]
      simp
    | reserve =>
      -- the token is new, so nothing points its slot anywhere
      have hnew : target ops (issued ops) = none :=
        target_eq_none fun hmem => (h.of_append.lt_of_mem hmem).false
      rw [target_of_token?_eq_none ops rfl, ← hops, image, image, hnew]
      simp [Session.perform, CodeBuffer.reserve, slotBytes]
    | resolve token address =>
      rw [h.code_resolve rfl hops]
      exact (List.append_nil _).symm
    | resolveHere token =>
      rw [Session.perform_resolveHere, h.code_resolve rfl hops, target_resolveHere]
      exact (List.append_nil _).symm

/-- What an operation binds to an address that is given. -/
def Operation.given? : Operation → Option Binding
  | resolve token address => some ⟨token, address⟩
  | emit _ | reserve | resolveHere _ => none

theorem bindings_congr {s t : Session} (h : s.buffer.pc = t.buffer.pc) (ops : List Operation) :
    bindings s ops = bindings t ops := by
  induction ops generalizing s t with
  | nil => rfl
  | cons op ops ih =>
    have hpc := s.pc_perform op
    rw [h, ← t.pc_perform] at hpc
    rw [bindings, bindings, h, ih hpc]

/-- Addresses that are given bind wherever they stand; the other bindings do not depend on them. -/
theorem perm_bindings (s : Session) (ops : List Operation) : (bindings s ops).Perm
    (ops.filterMap Operation.given? ++ bindings s (ops.filter (!·.isResolve))) := by
  induction ops generalizing s with
  | nil => exact List.Perm.refl _
  | cons op ops ih =>
    have hops := ih (s.perform op)
    cases op with
    | emit e => exact hops
    | reserve => exact hops
    | resolve token address =>
      rw [bindings_congr (s.pc_perform_resolve token address) (ops.filter _)] at hops
      exact hops.cons _
    | resolveHere token => exact (hops.cons _).trans List.perm_middle.symm

theorem image_filter (f : Nat → Option Nat) (token : Nat) (ops : List Operation) :
    image f token (ops.filter (!·.isResolve)) = image f token ops := by
  induction ops generalizing token with
  | nil => rfl
  | cons op ops ih =>
    cases op with
    | emit e => exact congrArg (e.encode ++ ·) (ih token)
    | reserve => exact congrArg (slotBytes (f token) ++ ·) (ih (token + 1))
    | resolve k address => exact ih token
    | resolveHere k => exact ih token

theorem Rearranged.target_eq {ops ops' : List Operation} (h : Rearranged ops ops')
    (hops : Linear ops) : target ops' = target ops := by
  have hbindings : (bindings .new ops).Perm (bindings .new ops') := by
    refine (perm_bindings _ ops).trans (List.Perm.trans ?_ (perm_bindings _ ops').symm)
    rw [h.2]
    exact (h.1.symm.filterMap _).append_right _
  funext token
  exact (List.perm_dlookup token (hops.nodupKeys _) hbindings).symm

/-- The buffer does not depend on when slots are resolved to given addresses. -/
theorem Rearranged.buffer_eq {ops ops' : List Operation} (h : Rearranged ops ops')
    (hops : Linear ops) (hops' : Linear ops') : (run ops').buffer = (run ops).buffer := by
  have hcode : (run ops').buffer.code = (run ops).buffer.code := by
    apply Array.toList_inj.mp
    rw [code_run hops, code_run hops', h.target_eq hops, ← image_filter, h.2, image_filter]
  have hissued : issued ops' = issued ops := h.1.countP_eq _
  have hresolved : (resolved ops').length = (resolved ops).length := (h.1.filterMap _).length_eq
  have hcount := hops.unresolved_run
  have hcount' := hops'.unresolved_run
  have hunresolved : (run ops').buffer.unresolved = (run ops).buffer.unresolved := by omega
  exact congrArg₂ CodeBuffer.mk hcode hunresolved

/-- Operations that spend no token twice, and none before it is issued, keep to the bounds of the
buffer. Slots do not overlap, and those not yet resolved are counted. The code is what was written,
with the address of each resolved slot in its place, and no byte outside such a slot is changed once
it is written. So it does not matter when slots are resolved to given addresses. -/
theorem run_patches_slots (ops : List Operation) (h : Linear ops) :
    (∀ before op after, ops = before ++ op :: after → (run before).Allows op) ∧
    ((run ops).slots.length = issued ops ∧
      (run ops).slots.Pairwise fun a b => ∀ i, a.Covers i → ¬ b.Covers i) ∧
    ((resolved ops).length ≤ issued ops ∧
      (run ops).buffer.unresolved = issued ops - (resolved ops).length) ∧
    ((run ops).buffer.code.toList = image (target ops) 0 ops ∧
      ∀ token slot, (run ops).slots[token]? = some slot →
        ((run ops).buffer.code.toList.drop slot.offset).take 2 = slotBytes (target ops token)) ∧
    (∀ before after, ops = before ++ after → ∀ i < (run before).buffer.pc,
      (∀ token ∈ resolved after, ∀ slot ∈ (run ops).slots[token]?, ¬ slot.Covers i) →
        (run ops).buffer.code[i]? = (run before).buffer.code[i]?) ∧
    ∀ ops', Rearranged ops ops' → Linear ops' → (run ops').buffer = (run ops).buffer := by
  refine ⟨?_, ⟨length_slots_run ops, ?_⟩, ⟨h.length_resolved_le, ?_⟩, ⟨code_run h, ?_⟩, ?_, ?_⟩
  · rintro before op after rfl
    exact h.allows
  · refine (ordered_run ops).apart.imp fun hab i ha hb => ?_
    rw [Slot.Covers] at ha hb
    omega
  · have hcount := h.unresolved_run
    omega
  · intro token slot hslot
    rw [code_run h]
    exact slot_holds hslot
  · rintro before after rfl i hi hcovers
    rw [run, performAll_append] at hcovers ⊢
    exact getElem?_performAll hi hcovers
  · intro ops' hops' hlinear
    exact hops'.buffer_eq h hlinear

/-- Jumps one behind the other, with two operations among their slots and a slot that is left
open. -/
def crossedJumps (first second : Operation) : List Operation :=
  [.emit (.opcode .jumpIfFalse), .reserve, .emit (.opcode .jump), .reserve, first, .reserve, second,
    .reserve, .resolveHere 2, .emit (.word 0x0102)]

/-- The later slot is resolved first, to an address that is too great, and then the earlier one; or
the other way round. -/
theorem run_patches_slots_crossed :
    (Linear (crossedJumps (.resolve 1 70000) (.resolve 0 0x1234)) ∧
      Linear (crossedJumps (.resolve 0 0x1234) (.resolve 1 70000)) ∧
      Rearranged (crossedJumps (.resolve 1 70000) (.resolve 0 0x1234))
        (crossedJumps (.resolve 0 0x1234) (.resolve 1 70000))) ∧
    (run (crossedJumps (.resolve 1 70000) (.resolve 0 0x1234))).buffer.unresolved = 1 ∧
    (run (crossedJumps (.resolve 1 70000) (.resolve 0 0x1234))).buffer.code.toList =
      [0x11, 0x12, 0x34, 0x10, 0xFF, 0xFF, 0x00, 0x0A, 0x00, 0x00, 0x01, 0x02] ∧
    (run (crossedJumps (.resolve 0 0x1234) (.resolve 1 70000))).buffer =
      (run (crossedJumps (.resolve 1 70000) (.resolve 0 0x1234))).buffer := by
  have hfirst : Linear (crossedJumps (.resolve 1 70000) (.resolve 0 0x1234)) :=
    ⟨by decide, by decide⟩
  have hsecond : Linear (crossedJumps (.resolve 0 0x1234) (.resolve 1 70000)) :=
    ⟨by decide, by decide⟩
  have hrearranged : Rearranged (crossedJumps (.resolve 1 70000) (.resolve 0 0x1234))
      (crossedJumps (.resolve 0 0x1234) (.resolve 1 70000)) := ⟨by decide, by decide⟩
  obtain ⟨-, -, ⟨-, hunresolved⟩, ⟨hcode, -⟩, -, horder⟩ := run_patches_slots _ hfirst
  refine ⟨⟨hfirst, hsecond, hrearranged⟩, hunresolved, ?_, horder _ hrearranged hsecond⟩
  rw [hcode]
  decide

end RobotBlocks.CodeBuffer
