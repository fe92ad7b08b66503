import Mathlib
import RobotBlocks.Proofs.Layout

/-! Symbolic code, whose jumps name labels. It is laid out and assembled in two passes: the offsets of
the labels are found from the sizes of the instructions, and then put in their places. -/

namespace RobotBlocks

/-- What a label marks within its block. -/
inductive Place where
  | nextArm (index : Nat)
  | conditionalEnd
  | loopStart
  | loopExit
  deriving DecidableEq, Repr

/-- A label belongs to a block, which is given by the way to it from the head of the chain. -/
structure Label where
  path : List Nat
  place : Place
  deriving DecidableEq, Repr

/-- Symbolic code: positions with a label, finished instructions, and jumps to labels. -/
inductive Symbolic where
  | mark (label : Label)
  | plain (instruction : Instruction)
  | jump (op : Opcode) (target : Label)
  deriving DecidableEq, Repr

namespace Symbolic

def size : Symbolic → Nat
  | mark _ => 0
  | plain i => i.opcode.size
  | jump op _ => op.size

def totalSize : List Symbolic → Nat
  | [] => 0
  | s :: rest => s.size + totalSize rest

/-- The offset of the position that a label names. -/
def offsetOf? (label : Label) : List Symbolic → Option Nat
  | [] => none
  | s :: rest => if s = mark label then some 0 else (offsetOf? label rest).map (s.size + ·)

/-- The instruction of a symbol, with addresses that fit into a word. -/
def resolve (place : Label → Option Nat) : Symbolic → Option (List Instruction)
  | mark _ => some []
  | plain i => some [i]
  | jump op label => match place label with
    | some n => if n ≤ maxProgram then some [⟨op, [.address n.toUInt16]⟩] else none
    | none => none

def resolveAll (place : Label → Option Nat) : List Symbolic → Option (List Instruction)
  | [] => some []
  | s :: rest => match s.resolve place, resolveAll place rest with
    | some i, some is => some (i ++ is)
    | _, _ => none

/-- Lays symbolic code out from offset zero and encodes it. -/
def assemble (code : List Symbolic) : Option (List UInt8) :=
  (resolveAll (fun label => offsetOf? label code) code).map codeBytes

/-- The labels that stand in some code. -/
def labels (code : List Symbolic) : List Label :=
  code.filterMap fun
    | mark label => some label
    | _ => none

@[simp] theorem totalSize_nil : totalSize [] = 0 := rfl

@[simp] theorem totalSize_cons (s : Symbolic) (code : List Symbolic) :
    totalSize (s :: code) = s.size + totalSize code := rfl

@[simp] theorem totalSize_append (c d : List Symbolic) :
    totalSize (c ++ d) = totalSize c + totalSize d := by
  induction c with
  | nil => simp
  | cons s c ih => simp [ih, Nat.add_assoc]

@[simp] theorem totalSize_plain (code : List Instruction) :
    totalSize (code.map plain) = codeSize code := by
  induction code with
  | nil => rfl
  | cons i code ih => simp [ih, size]

@[simp] theorem labels_nil : labels [] = [] := rfl

@[simp] theorem labels_mark (label : Label) (code : List Symbolic) :
    labels (mark label :: code) = label :: labels code := rfl

@[simp] theorem labels_plain (i : Instruction) (code : List Symbolic) :
    labels (plain i :: code) = labels code := rfl

@[simp] theorem labels_jump (op : Opcode) (label : Label) (code : List Symbolic) :
    labels (jump op label :: code) = labels code := rfl

@[simp] theorem labels_append (c d : List Symbolic) : labels (c ++ d) = labels c ++ labels d := by
  simp [labels]

@[simp] theorem labels_map_plain (code : List Instruction) : labels (code.map plain) = [] := by
  induction code with
  | nil => rfl
  | cons i code ih => simp [ih]

/-- A label that does not stand earlier is found where it stands. -/
theorem offsetOf?_of_notMem {label : Label} {before : List Symbolic}
    (h : label ∉ labels before) (after : List Symbolic) :
    offsetOf? label (before ++ mark label :: after) = some (totalSize before) := by
  induction before with
  | nil => simp [offsetOf?]
  | cons s before ih =>
    have hs : s ≠ mark label := by
      rintro rfl
      simp at h
    have hb : label ∉ labels before := by
      intro hm
      apply h
      cases s <;> simp [hm]
    simp [offsetOf?, hs, ih hb]

/-- A label with an offset stands there. -/
theorem exists_of_offsetOf? {label : Label} {code : List Symbolic} {n : Nat}
    (h : offsetOf? label code = some n) :
    ∃ front back, code = front ++ mark label :: back ∧ totalSize front = n := by
  induction code generalizing n with
  | nil => simp [offsetOf?] at h
  | cons s code ih =>
    rw [offsetOf?] at h
    split at h
    next hs =>
      cases h
      exact ⟨[], code, by rw [hs]; rfl, rfl⟩
    next =>
      obtain ⟨m, hm, rfl⟩ := Option.map_eq_some_iff.mp h
      obtain ⟨front, back, rfl, rfl⟩ := ih hm
      exact ⟨s :: front, back, rfl, rfl⟩

theorem offsetOf?_le {label : Label} {code : List Symbolic} {n : Nat}
    (h : offsetOf? label code = some n) : n ≤ totalSize code := by
  obtain ⟨front, back, rfl, rfl⟩ := exists_of_offsetOf? h
  simp

/-- Every label of some code at `base` has the offset at which it stands. -/
def Agrees (place : Label → Option Nat) : Nat → List Symbolic → Prop
  | _, [] => True
  | base, mark label :: rest => place label = some base ∧ Agrees place base rest
  | base, s :: rest => Agrees place (base + s.size) rest

@[simp] theorem agrees_nil (place : Label → Option Nat) (base : Nat) : Agrees place base [] := by
  simp [Agrees]

@[simp] theorem agrees_mark {place : Label → Option Nat} {base : Nat} {label : Label}
    {code : List Symbolic} : Agrees place base (mark label :: code) ↔
      place label = some base ∧ Agrees place base code := by
  simp [Agrees]

@[simp] theorem agrees_plain {place : Label → Option Nat} {base : Nat} {i : Instruction}
    {code : List Symbolic} : Agrees place base (plain i :: code) ↔
      Agrees place (base + i.opcode.size) code := by
  simp [Agrees, size]

@[simp] theorem agrees_jump {place : Label → Option Nat} {base : Nat} {op : Opcode}
    {label : Label} {code : List Symbolic} : Agrees place base (jump op label :: code) ↔
      Agrees place (base + op.size) code := by
  simp [Agrees, size]

@[simp] theorem agrees_append {place : Label → Option Nat} {base : Nat} {c d : List Symbolic} :
    Agrees place base (c ++ d) ↔ Agrees place base c ∧ Agrees place (base + totalSize c) d := by
  induction c generalizing base with
  | nil => simp
  | cons s c ih =>
    cases s with
    | mark label => simp [ih, size, and_assoc]
    | plain i => simp [ih, size, Nat.add_assoc]
    | jump op label => simp [ih, size, Nat.add_assoc]

@[simp] theorem agrees_map_plain (place : Label → Option Nat) (base : Nat)
    (code : List Instruction) : Agrees place base (code.map plain) := by
  induction code generalizing base with
  | nil => simp
  | cons i code ih => simp [ih]

/-- If no label stands twice, the second pass finds each one where it stands. -/
theorem agrees_offsetOf? {code : List Symbolic} (h : (labels code).Nodup) :
    Agrees (fun label => offsetOf? label code) 0 code := by
  suffices ∀ before after, before ++ after = code →
      Agrees (fun label => offsetOf? label code) (totalSize before) after from
    this [] code rfl
  intro before after
  induction after generalizing before with
  | nil => simp
  | cons s after ih =>
    intro hc
    have hrest := ih (before ++ [s]) (by simp [hc])
    cases s with
    | mark label =>
      have hn : label ∉ labels before := by
        rw [← hc, labels_append, labels_mark] at h
        exact fun hm => (List.disjoint_of_nodup_append h) hm (by simp)
      rw [agrees_mark]
      refine ⟨?_, by simpa [size] using hrest⟩
      rw [← hc, offsetOf?_of_notMem hn]
    | plain i => simpa [size] using hrest
    | jump op label => simpa [size] using hrest

@[simp] theorem resolveAll_nil (place : Label → Option Nat) : resolveAll place [] = some [] := rfl

@[simp] theorem resolveAll_mark (place : Label → Option Nat) (label : Label)
    (code : List Symbolic) : resolveAll place (mark label :: code) = resolveAll place code := by
  simp only [resolveAll, resolve]
  cases resolveAll place code <;> rfl

@[simp] theorem resolveAll_plain (place : Label → Option Nat) (i : Instruction)
    (code : List Symbolic) :
    resolveAll place (plain i :: code) = (resolveAll place code).map (i :: ·) := by
  simp only [resolveAll, resolve]
  cases resolveAll place code <;> rfl

theorem resolveAll_jump {place : Label → Option Nat} {label : Label} {n : Nat}
    (hp : place label = some n) (hn : n ≤ maxProgram) (op : Opcode) (code : List Symbolic) :
    resolveAll place (jump op label :: code) =
      (resolveAll place code).map (jumpTo op n :: ·) := by
  simp only [resolveAll, resolve, hp, hn, if_true, jumpTo, addressWord_of_le hn]
  cases resolveAll place code <;> rfl

@[simp] theorem resolveAll_append (place : Label → Option Nat) (c d : List Symbolic) :
    resolveAll place (c ++ d) =
      (resolveAll place c).bind fun x => (resolveAll place d).map (x ++ ·) := by
  induction c with
  | nil => simp
  | cons s c ih =>
    simp only [List.cons_append, resolveAll, ih]
    cases s.resolve place <;> cases resolveAll place c <;> cases resolveAll place d <;> simp

@[simp] theorem resolveAll_map_plain (place : Label → Option Nat) (code : List Instruction) :
    resolveAll place (code.map plain) = some code := by
  induction code with
  | nil => rfl
  | cons i code ih => simp [ih]

theorem codeSize_of_resolve {place : Label → Option Nat} {s : Symbolic} {is : List Instruction}
    (h : s.resolve place = some is) : codeSize is = s.size := by
  cases s with
  | mark label =>
    cases h
    rfl
  | plain i =>
    cases h
    simp [size]
  | jump op label =>
    simp only [resolve] at h
    split at h
    · split at h <;> cases h
      simp [size]
    · cases h

theorem codeSize_of_resolveAll {place : Label → Option Nat} {code : List Symbolic}
    {is : List Instruction} (h : resolveAll place code = some is) :
    codeSize is = totalSize code := by
  induction code generalizing is with
  | nil =>
    cases h
    rfl
  | cons s code ih =>
    unfold resolveAll at h
    split at h
    next xs ys hxs hys =>
      cases h
      rw [codeSize_append, codeSize_of_resolve hxs, ih hys, totalSize_cons]
    next => cases h

/-- A jump is resolved to the place of its label, behind the code of what stands before it. -/
theorem resolveAll_split {place : Label → Option Nat} {before after : List Symbolic} {op : Opcode}
    {label : Label} {is : List Instruction}
    (h : resolveAll place (before ++ jump op label :: after) = some is) :
    ∃ n xs ys, place label = some n ∧ n ≤ maxProgram ∧ codeSize xs = totalSize before ∧
      is = xs ++ jumpTo op n :: ys := by
  rw [resolveAll_append] at h
  obtain ⟨xs, hxs, h⟩ := Option.bind_eq_some_iff.mp h
  obtain ⟨zs, hzs, rfl⟩ := Option.map_eq_some_iff.mp h
  cases hp : place label with
  | none => simp [resolveAll, resolve, hp] at hzs
  | some n =>
    by_cases hn : n ≤ maxProgram
    · rw [resolveAll_jump hp hn] at hzs
      obtain ⟨ys, -, rfl⟩ := Option.map_eq_some_iff.mp hzs
      exact ⟨n, xs, ys, rfl, hn, codeSize_of_resolveAll hxs, rfl⟩
    · simp [resolveAll, resolve, hp, hn] at hzs

/-- The start of a next arm is always right behind a jump to the end of the same conditional. -/
def ArmsClose (code : List Symbolic) : Prop :=
  ∀ before path index after, code = before ++ mark ⟨path, .nextArm index⟩ :: after →
    ∃ earlier, before = earlier ++ [jump .jump ⟨path, .conditionalEnd⟩]

theorem ArmsClose.append {c d : List Symbolic} (hc : ArmsClose c) (hd : ArmsClose d) :
    ArmsClose (c ++ d) := by
  intro before path index after h
  rcases List.append_eq_append_iff.mp h with ⟨x, rfl, hx⟩ | ⟨y, rfl, hy⟩
  · obtain ⟨earlier, rfl⟩ := hd _ _ _ _ hx
    exact ⟨c ++ earlier, by simp⟩
  · cases y with
    | nil =>
      -- the mark would be the first symbol of `d`
      obtain ⟨earlier, he⟩ := hd [] _ _ _ (by simpa using hy.symm)
      simp at he
    | cons s y =>
      obtain ⟨rfl, -⟩ := List.cons.inj hy
      exact hc _ _ _ _ rfl

theorem armsClose_of_labels {code : List Symbolic}
    (h : ∀ path index, (⟨path, .nextArm index⟩ : Label) ∉ labels code) : ArmsClose code := by
  rintro before path index after rfl
  exact absurd (by simp) (h path index)

theorem ArmsClose.cons {s : Symbolic} {code : List Symbolic}
    (hs : ∀ path index, s ≠ mark ⟨path, .nextArm index⟩) (h : ArmsClose code) :
    ArmsClose (s :: code) := by
  have hsingle : ArmsClose [s] := armsClose_of_labels (by cases s <;> simp_all [eq_comm])
  exact hsingle.append h

theorem armsClose_plain (code : List Instruction) : ArmsClose (code.map plain) :=
  armsClose_of_labels (by simp)

theorem ArmsClose.flatMap {α : Type} {f : α → List Symbolic} (xs : List α)
    (h : ∀ x ∈ xs, ArmsClose (f x)) : ArmsClose (xs.flatMap f) := by
  induction xs with
  | nil => exact armsClose_of_labels (by simp)
  | cons x xs ih =>
    rw [List.flatMap_cons]
    exact (h x (by simp)).append (ih fun y hy => h y (by simp [hy]))

/-- The bytes of the jump that stands behind some code. -/
def jumpBytes (before : List Symbolic) (program : List UInt8) : List UInt8 :=
  (program.drop (totalSize before)).take Statement.jumpSize

/-- A program in which every address is the position of the label that the jump names: labels are
unique, addresses are positions within the program, all arms of a conditional end with the same
address, and a skip goes right behind the end of its own arm. -/
structure Placed (code : List Symbolic) (program : List UInt8) : Prop where
  unique : (labels code).Nodup
  address : ∀ before op label after, code = before ++ jump op label :: after →
    ∃ front back, code = front ++ mark label :: back ∧ totalSize front < program.length ∧
      totalSize front < maxProgram ∧
      jumpBytes before program = op.byte :: wordBytes (totalSize front).toUInt16
  ends : ∀ path before after before' after',
    code = before ++ jump .jump ⟨path, .conditionalEnd⟩ :: after →
    code = before' ++ jump .jump ⟨path, .conditionalEnd⟩ :: after' →
      jumpBytes before program = jumpBytes before' program
  skip : ∀ path index before after,
    code = before ++ jump .jumpIfFalse ⟨path, .nextArm index⟩ :: after →
    ∃ front back, code = front ++ jump .jump ⟨path, .conditionalEnd⟩
        :: mark ⟨path, .nextArm index⟩ :: back ∧
      jumpBytes before program = Opcode.jumpIfFalse.byte ::
        wordBytes (totalSize front + Statement.jumpSize).toUInt16

theorem jumpBytes_of_resolveAll {place : Label → Option Nat} {before after : List Symbolic}
    {op : Opcode} {label : Label} {is : List Instruction}
    (h : resolveAll place (before ++ jump op label :: after) = some is)
    (his : ∀ i ∈ is, i.WellFormed) (rest : List UInt8) :
    ∃ n, place label = some n ∧
      jumpBytes before (codeBytes is ++ rest) = op.byte :: wordBytes n.toUInt16 := by
  obtain ⟨n, xs, ys, hn, hmax, hxs, rfl⟩ := resolveAll_split h
  have hfront : (codeBytes xs).length = totalSize before := by
    rw [length_codeBytes fun i hi => his i (by simp [hi]), hxs]
  refine ⟨n, hn, ?_⟩
  simp [jumpBytes, ← hfront, Statement.jumpSize, wordBytes, addressWord_of_le hmax]

theorem placed_of_resolveAll {code : List Symbolic} {is : List Instruction}
    (hlabels : (labels code).Nodup) (harms : ArmsClose code) (hsize : totalSize code < maxProgram)
    (h : resolveAll (fun label => offsetOf? label code) code = some is)
    (his : ∀ i ∈ is, i.WellFormed) : Placed code (codeBytes is ++ [Opcode.halt.byte]) := by
  have hbytes (before : List Symbolic) (op : Opcode) (label : Label) (after : List Symbolic)
      (hc : code = before ++ jump op label :: after) :
      ∃ n, offsetOf? label code = some n ∧
        jumpBytes before (codeBytes is ++ [Opcode.halt.byte]) =
          op.byte :: wordBytes n.toUInt16 := by
    generalize hplace : (fun label => offsetOf? label code) = place at h
    rw [hc] at h
    obtain ⟨n, hn, hb⟩ := jumpBytes_of_resolveAll h his [Opcode.halt.byte]
    rw [← hplace] at hn
    exact ⟨n, hn, hb⟩
  have hlen : (codeBytes is ++ [Opcode.halt.byte]).length = totalSize code + 1 := by
    rw [List.length_append, length_codeBytes his, codeSize_of_resolveAll h]
    rfl
  constructor
  case unique => exact hlabels
  case address =>
    intro before op label after hc
    obtain ⟨n, hn, hb⟩ := hbytes before op label after hc
    have hle := offsetOf?_le hn
    obtain ⟨front, back, hsplit, rfl⟩ := exists_of_offsetOf? hn
    exact ⟨front, back, hsplit, by omega, by omega, hb⟩
  case ends =>
    intro path before after before' after' hc hc'
    obtain ⟨n, hn, hb⟩ := hbytes before _ _ after hc
    obtain ⟨n', hn', hb'⟩ := hbytes before' _ _ after' hc'
    obtain rfl : n = n' := Option.some.inj (hn.symm.trans hn')
    rw [hb, hb']
  case skip =>
    intro path index before after hc
    obtain ⟨n, hn, hb⟩ := hbytes before _ _ after hc
    obtain ⟨front, back, hsplit, rfl⟩ := exists_of_offsetOf? hn
    -- what stands before the label of a next arm ends with the end jump of the arm
    obtain ⟨earlier, rfl⟩ := harms front path index back hsplit
    refine ⟨earlier, back, by rw [hsplit]; simp, ?_⟩
    rw [hb]
    simp [size]

end Symbolic

end RobotBlocks
