import WcpVerified.IoUring

/-!
# The rounds of one runner

A runner that waits for its turn is handed to `submitReadWriteCommands`; the kernel completes the
requests it queued, and `onCompletionEvent` sees the completions in some order. The last of them
finishes the runner, reports its error, or reschedules it for another round. `Round` is one such
round, with everything that is answered in it, for a runner whose files are open.
-/

namespace Wcp

/-- What the rounds of a runner have in common: its files and how it is known to the kernel. -/
structure RunnerEnv where
  strerror : Errno → List Char := fun _ => []
  modes : DebugModes := {}
  sourcePath : Path := []
  destPath : Path := []
  source : Ino
  dest : Ino
  self : ℕ := 0

/-- How a kernel answers a request that it runs. -/
abbrev Policy := Sqe → Storage → ℤ → Prop

/-- The kernel completes the requests of a chain, in order; those it runs, by its policy. -/
inductive Chain.Completes (policy : Policy) : Chain → Storage → List Cqe → Storage → Prop where
  | nil {broken : Bool} {st : Storage} : Completes policy ⟨[], broken⟩ st [] st
  | cons {c c' : Chain} {st st' st'' : Storage} {res : ℤ} {e : Sqe} {rest : List Sqe} {cqe : Cqe}
      {cqes : List Cqe} (hreqs : c.reqs = e :: rest) (hres : c.broken = false → policy e st res)
      (hc : c.complete st res = some (c', st', cqe)) (h : Completes policy c' st' cqes st'') :
      Completes policy c st (cqe :: cqes) st''

/-- A runner and the requests it has in flight, as far as the results of the requests matter: a round
begins, or the first request of the chain completes, with a result of at most what it asked for, and
cancelled if the chain is broken. -/
inductive RunnerStep (env : RunnerEnv) : CopyRunner × Chain → CopyRunner × Chain → Prop where
  | submit {x : CopyRunner} {a b : ℕ} {broken : Bool} {sqes : List Sqe}
      (hx : x.runnerResult = .reschedule)
      (hsqes : sqes = x.requests env.modes a b (some env.source) (some env.dest) env.self) :
      RunnerStep env (x, ⟨[], broken⟩) (x.submitted env.modes a sqes.length, { reqs := sqes })
  | complete {x : CopyRunner} {e : Sqe} {rest : List Sqe} {broken : Bool} {res : ℤ}
      (hle : res ≤ e.len) (hcancel : broken = true → res = -ECANCELED) :
      RunnerStep env (x, ⟨e :: rest, broken⟩)
        (x.onCompletionEvent env.strerror env.modes env.sourcePath env.destPath e.event res,
          ⟨rest, broken || !e.succeeded res⟩)

/-- `onCompletionEvent` for one completion after the other. -/
def CopyRunner.handle (env : RunnerEnv) (x : CopyRunner) (cqes : List Cqe) : CopyRunner :=
  cqes.foldl (fun y c => y.onCompletionEvent env.strerror env.modes env.sourcePath env.destPath
    c.event c.res) x

/-- One round of a runner that was not started yet, or was rescheduled. -/
inductive Round (env : RunnerEnv) (policy : Policy) :
    CopyRunner × Storage → CopyRunner × Storage → Prop where
  | mk {x : CopyRunner} {st st' : Storage} {a b : ℕ} {sqes reqs : List Sqe} {cqes seen : List Cqe}
      (hx : x.runnerResult = .reschedule)
      (hsqes : sqes = x.requests env.modes a b (some env.source) (some env.dest) env.self)
      (hchain : splitChains sqes = [reqs])
      (hrun : Chain.Completes policy { reqs } st cqes st') (hseen : seen.Perm cqes) :
      Round env policy (x, st) ((x.submitted env.modes a sqes.length).handle env seen, st')

end Wcp
