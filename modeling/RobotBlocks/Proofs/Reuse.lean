import Mathlib
import RobotBlocks.Proofs.Reached

/-! A generator that is used for one workspace after another. What it replies and what it keeps is
found from the requests made so far alone; the main result is that every request of a session is
answered so. -/

namespace RobotBlocks

/-- What can be asked of a generator. -/
inductive Request where
  | generate (w : Workspace)
  | takeDiagnostics

inductive Reply where
  | generated (result : Except CompileError (List UInt8))
  | taken (diagnostics : List Diagnostic)

namespace Request

def workspace? : Request → Option Workspace
  | generate w => some w
  | takeDiagnostics => none

/-- The workspaces compiled since the diagnostics were last taken. -/
def sinceTaken (history : List Request) : List Workspace :=
  (history.rtakeWhile (·.workspace?.isSome)).filterMap workspace?

/-- The diagnostics not yet taken, as fresh generators report them. -/
def pending (history : List Request) : List Diagnostic :=
  (sinceTaken history).flatMap fun w => (Generator.new.generate w).2.diagnostics

/-- The start block of the last workspace that had one. -/
def lastStart? (history : List Request) : Option Block :=
  ((history.filterMap workspace?).filterMap fun w => w.blocks.find? (·.kind = startKind)).getLast?

/-- The kinds of the last chain that was compiled; none at first. -/
def lastChain (history : List Request) : List String :=
  (lastStart? history).elim [] fun start => (Block.chain start.next?).map Block.kind

/-- The reply to a request after some others. -/
def reply (history : List Request) : Request → Reply
  | generate w => .generated (Generator.new.generate w).1
  | takeDiagnostics => .taken (pending history)

/-- What is left of a generator after some requests: its buffer is empty. -/
def leftBy (history : List Request) : Generator := ⟨.empty, pending history, lastChain history⟩

theorem sinceTaken_generate (history : List Request) (w : Workspace) :
    sinceTaken (history ++ [generate w]) = sinceTaken history ++ [w] := by
  unfold sinceTaken
  rw [List.rtakeWhile_concat_pos _ _ _ (by rfl), List.filterMap_append]
  rfl

theorem sinceTaken_takeDiagnostics (history : List Request) :
    sinceTaken (history ++ [takeDiagnostics]) = [] := by
  unfold sinceTaken
  rw [List.rtakeWhile_concat_neg _ _ _ (by simp [workspace?])]
  rfl

theorem pending_generate (history : List Request) (w : Workspace) :
    pending (history ++ [generate w]) =
      pending history ++ (Generator.new.generate w).2.diagnostics := by
  simp [pending, sinceTaken_generate]

theorem lastStart?_generate (history : List Request) (w : Workspace) :
    lastStart? (history ++ [generate w]) = w.start?.or (lastStart? history) := by
  unfold lastStart?
  rw [w.start?_eq_find?]
  cases hs : w.blocks.find? (·.kind = startKind) <;> simp [workspace?, hs]

theorem lastChain_takeDiagnostics (history : List Request) :
    lastChain (history ++ [takeDiagnostics]) = lastChain history := by
  have hworkspaces : (history ++ [takeDiagnostics]).filterMap workspace? =
      history.filterMap workspace? := by
    rw [List.filterMap_append]
    exact List.append_nil _
  rw [lastChain, lastStart?, hworkspaces]
  rfl

end Request

namespace Generator

/-- One request. -/
def answer (g : Generator) : Request → Reply × Generator
  | .generate w => (.generated (g.generate w).1, (g.generate w).2)
  | .takeDiagnostics => (.taken g.takeDiagnostics.1, g.takeDiagnostics.2)

/-- Requests in a row: the reply to each, and the generator as it is left by it. -/
def session (g : Generator) : List Request → List (Reply × Generator)
  | [] => []
  | r :: rest => g.answer r :: session (g.answer r).2 rest

/-- What a fresh generator reports about a workspace, whether the program is too long or not. -/
theorem diagnostics_new (w : Workspace) :
    (new.generate w).2.diagnostics = (w.blocks.find? (·.kind = startKind)).elim [] fun start =>
      ((Block.reached start.next?).filter (·.kind ∉ statementKinds)).map fun b => ⟨b.kind⟩ := by
  rw [← w.start?_eq_find?]
  cases hs : w.start? with
  | none => simp [generate, hs, new]
  | some start =>
    simp only [generate, hs, addStatements, new, Block.readingNext_eq,
      Block.chainUnknowns_statementsOf, List.nil_append, List.map_map, Option.elim_some]
    rfl

/-- A generator whose buffer is empty compiles as a fresh one does, and adds to what it keeps. -/
theorem generate_of_empty {g : Generator} (h : g.buffer = .empty) (w : Workspace) :
    g.generate w = ((new.generate w).1,
      ⟨.empty, g.diagnostics ++ (new.generate w).2.diagnostics,
        w.start?.elim g.chain fun start => (Block.chain start.next?).map Block.kind⟩) := by
  obtain ⟨buffer, diagnostics, chain⟩ := g
  obtain rfl : buffer = .empty := h
  cases hs : w.start? with
  | none => simp [generate, hs, new]
  | some start => simp [generate, hs, new, addStatements, Block.nextKinds_eq]

open Request in
/-- One request, after any others. -/
theorem answer_leftBy (history : List Request) (r : Request) :
    (leftBy history).answer r = (reply history r, leftBy (history ++ [r])) := by
  cases r with
  | generate w =>
    have hchain : lastChain (history ++ [.generate w]) = w.start?.elim (lastChain history)
        fun start => (Block.chain start.next?).map Block.kind := by
      unfold lastChain
      rw [lastStart?_generate]
      cases w.start? <;> rfl
    have hgenerate := generate_of_empty (g := leftBy history) rfl w
    rw [answer, hgenerate, leftBy, leftBy, pending_generate, hchain]
    rfl
  | takeDiagnostics =>
    have hpending : pending (history ++ [.takeDiagnostics]) = [] := by
      rw [pending, sinceTaken_takeDiagnostics]
      rfl
    rw [leftBy, leftBy, hpending, lastChain_takeDiagnostics]
    rfl

/-- Requests in a row, after any others. -/
theorem session_leftBy (history requests : List Request) (i : Nat) :
    (session (Request.leftBy history) requests)[i]? = requests[i]?.map fun r =>
      (Request.reply (history ++ requests.take i) r,
        Request.leftBy (history ++ requests.take (i + 1))) := by
  induction requests generalizing history i with
  | nil => simp [session]
  | cons r rest ih =>
    rw [session, answer_leftBy]
    cases i with
    | zero => simp
    | succ i =>
      have hrest := ih (history ++ [r]) i
      simpa using hrest

end Generator

/-- A generator can be used again and again. Each request of a session is answered as a fresh
generator would answer it, and leaves an empty buffer, the diagnostics that fresh generators report
since they were last taken, and the last chain. A workspace reports its unknown reached statements,
even if its program is too long, and nothing if it has no start block. -/
theorem generator_reusable (requests : List Request) :
    (∀ i, (Generator.new.session requests)[i]? = requests[i]?.map fun r =>
      (Request.reply (requests.take i) r, Request.leftBy (requests.take (i + 1)))) ∧
    ∀ w : Workspace, (Generator.new.generate w).2.diagnostics =
      (w.blocks.find? (·.kind = startKind)).elim [] fun start =>
        ((Block.reached start.next?).filter (·.kind ∉ statementKinds)).map fun b => ⟨b.kind⟩ := by
  constructor
  · intro i
    have hfresh : Request.leftBy [] = Generator.new := rfl
    have h := Generator.session_leftBy [] requests i
    rwa [hfresh, List.nil_append, List.nil_append] at h
  · exact Generator.diagnostics_new

end RobotBlocks
