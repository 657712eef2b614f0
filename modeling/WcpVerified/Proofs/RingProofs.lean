import WcpVerified.Proofs.RunnerProofs
import WcpVerified.Proofs.ThreadProofs

/-!
# Proofs: the requests of a runner and the counters of the ring

Every request is in exactly one place: queued, with the kernel, or completed and not yet seen. It
belongs to a runner that is alive, a runner has at most one read and one write among them, and
`jobsRunning` and `submissionsRunning` count them. A write never reaches past the end of its chunk.
-/

namespace Wcp

open MachineWord List

/-- What a completion reports on. -/
def Cqe.tag (c : Cqe) : ℕ × EventType := (c.runner, c.event)

/-- The requests not yet completed. -/
def pendingReqs (sq : List Sqe) (chains : List Chain) : List Sqe := sq ++ chains.flatMap Chain.reqs

/-- All requests whose completion has not been seen. -/
def tags (sq : List Sqe) (chains : List Chain) (cq : List Cqe) : List (ℕ × EventType) :=
  (pendingReqs sq chains).map Sqe.tag ++ cq.map Cqe.tag

/-! ## Chains -/

@[simp] theorem flatten_splitChains (l : List Sqe) : (splitChains l).flatten = l := by
  induction l with
  | nil => rfl
  | cons e es ih =>
    unfold splitChains
    split
    · split
      · rename_i h
        rw [h] at ih
        simpa using ih
      · rename_i c cs h
        rw [h] at ih
        simpa using ih
    · simpa using ih

/-- What completing a request of a chain does. -/
theorem Chain.complete_spec {c c' : Chain} {st st' : Storage} {res : ℤ} {cqe : Cqe}
    (h : c.complete st res = some (c', st', cqe)) :
    ∃ e rest, c.reqs = e :: rest ∧ c'.reqs = rest ∧ cqe = ⟨e.runner, e.event, res⟩ ∧
      ((c.broken = true ∧ res = -ECANCELED ∧ st' = st ∧ c'.broken = true) ∨
        (c.broken = false ∧ e.mayReturn st res = true ∧ st' = e.effect st res ∧
          c'.broken = !e.succeeded res)) := by
  unfold Chain.complete at h
  split at h
  · cases h
  · rename_i e rest hreqs
    split at h
    · rename_i hb
      split at h
      · rename_i hres
        cases h
        exact ⟨e, rest, hreqs, rfl, rfl, .inl ⟨hb, hres, rfl, hb⟩⟩
      · cases h
    · rename_i hb
      split at h
      · rename_i hret
        cases h
        exact ⟨e, rest, hreqs, rfl, rfl, .inr ⟨by simpa using hb, hret, rfl, rfl⟩⟩
      · cases h

/-- Taking the first request out of one chain takes it out of the requests of all chains. -/
theorem flatMap_reqs_set {chains : List Chain} {i : ℕ} {c c' : Chain} {e : Sqe} {rest : List Sqe}
    (hi : chains[i]? = some c) (hc : c.reqs = e :: rest) (hc' : c'.reqs = rest) :
    chains.flatMap Chain.reqs ~ e :: (chains.set i c').flatMap Chain.reqs := by
  induction chains generalizing i with
  | nil => simp at hi
  | cons d ds ih =>
    cases i with
    | zero =>
      simp only [getElem?_cons_zero, Option.some.injEq] at hi
      subst hi
      simp [hc, hc']
    | succ i =>
      simp only [getElem?_cons_succ] at hi
      rw [flatMap_cons, set_cons_succ, flatMap_cons]
      exact ((ih hi).append_left d.reqs).trans perm_middle

/-- Submitting moves the first entries of the queue to the chains. -/
theorem pendingReqs_submit (sq : List Sqe) (chains : List Chain) (k : ℕ) :
    pendingReqs (sq.drop k) (chains ++ (splitChains (sq.take k)).map fun reqs => ({ reqs } : Chain)) ~
      pendingReqs sq chains := by
  have hflat : ((splitChains (sq.take k)).map fun reqs => ({ reqs } : Chain)).flatMap Chain.reqs =
      sq.take k := by
    rw [flatMap_map, ← flatten_splitChains (sq.take k), flatMap_def, map_id']
    simp
  unfold pendingReqs
  rw [flatMap_append, hflat]
  calc sq.drop k ++ (chains.flatMap Chain.reqs ++ sq.take k)
      ~ (chains.flatMap Chain.reqs ++ sq.take k) ++ sq.drop k := perm_append_comm
    _ = chains.flatMap Chain.reqs ++ sq := by rw [append_assoc, take_append_drop]
    _ ~ sq ++ chains.flatMap Chain.reqs := perm_append_comm

/-- Completing a request takes it from the pending requests. -/
theorem pendingReqs_kernel (sq : List Sqe) {chains : List Chain} {i : ℕ} {c c' : Chain} {e : Sqe}
    {rest : List Sqe} (hi : chains[i]? = some c) (hc : c.reqs = e :: rest) (hc' : c'.reqs = rest) :
    pendingReqs sq chains ~ e :: pendingReqs sq (chains.set i c') :=
  ((flatMap_reqs_set hi hc hc').append_left sq).trans perm_middle

/-- A request that is completed keeps its tag. -/
theorem tags_kernel {sq : List Sqe} {chains : List Chain} {cq : List Cqe} {i : ℕ} {c c' : Chain}
    {e : Sqe} {rest : List Sqe} {res : ℤ} (hi : chains[i]? = some c) (hc : c.reqs = e :: rest)
    (hc' : c'.reqs = rest) :
    tags sq (chains.set i c') (cq ++ [⟨e.runner, e.event, res⟩]) ~ tags sq chains cq := by
  have hpend := pendingReqs_kernel sq hi hc hc'
  calc tags sq (chains.set i c') (cq ++ [⟨e.runner, e.event, res⟩])
      ~ e.tag :: ((pendingReqs sq (chains.set i c')).map Sqe.tag ++ cq.map Cqe.tag) := by
        rw [tags, map_append, ← append_assoc]
        exact perm_append_singleton _ _
    _ ~ tags sq chains cq := by
        rw [tags, ← cons_append]
        exact ((hpend.map Sqe.tag).symm).append_right _

/-- A completion that is seen takes its tag away. -/
theorem tags_completion (sq : List Sqe) (chains : List Chain) {cq : List Cqe} {i : ℕ} {c : Cqe}
    (hc : cq[i]? = some c) : tags sq chains cq ~ c.tag :: tags sq chains (cq.eraseIdx i) := by
  obtain ⟨hi, hget⟩ := List.getElem?_eq_some_iff.mp hc
  have h1 : cq ~ c :: cq.eraseIdx i := hget ▸ (getElem_cons_eraseIdx_perm hi).symm
  exact ((h1.map Cqe.tag).append_left _).trans perm_middle

/-! ## The invariant -/

/-- Whether a call of `handleFileClose` is made while a completion is being handled. -/
def CloseCaller.inEvent : CloseCaller → Bool
  | .finished | .saveError => true
  | .addFailed _ _ | .emptyFile _ => false

/-- Whether a call of `onError` is made while a completion is being handled. -/
def ErrorCaller.inEvent : ErrorCaller → Bool
  | .finished _ | .completion _ => true
  | .addFailed _ | .emptyFile _ _ => false

/-- Whether a completion has been peeked and not yet marked as seen. -/
def SubmitPc.inEvent : SubmitPc → Bool
  | .closing caller _ _ _ => caller.inEvent
  | .recording _ caller => caller.inEvent
  | .finishing _ | .event _ | .seen | .deleting _ .completion => true
  | _ => false

/-- The requests of the ring and the counters that count them. -/
structure RingInv (runners : Store CopyRunner) (sq : List Sqe) (chains : List Chain)
    (cq : List Cqe) (submissionsRunning : ℕ) (inEvent : Bool) : Prop where
  nodup : (tags sq chains cq).Nodup
  live : ∀ t ∈ tags sq chains cq, ∃ x, runners.get? t.1 = some x
  jobs : ∀ r x, runners.get? r = some x →
    x.jobsRunning = (tags sq chains cq).countP (·.1 == r)
  submissions : submissionsRunning = (tags sq chains cq).length + inEvent.toNat
  writeReq : ∀ e ∈ pendingReqs sq chains, e.event = .write → ∀ x,
    runners.get? e.runner = some x → x.writeOffset + e.len ≤ x.chunkEnd
  writeOp : ∀ e ∈ pendingReqs sq chains, e.event = .write → e.op ≠ .read
  writeRes : ∀ c ∈ cq, c.event = .write → 0 ≤ c.res → ∀ x,
    runners.get? c.runner = some x → x.writeOffset + c.res.toNat ≤ x.chunkEnd
  written : ∀ r x, runners.get? r = some x → x.offset ≤ x.writeOffset ∧ x.writeOffset ≤ x.chunkEnd

namespace RingInv

variable {runners runners' : Store CopyRunner} {sq sq' : List Sqe} {chains chains' : List Chain}
  {cq cq' : List Cqe} {n n' : ℕ} {b b' : Bool}

/-- A runner without requests has no tag. -/
theorem not_mem (h : RingInv runners sq chains cq n b) {r : ℕ} {x : CopyRunner}
    (hr : runners.get? r = some x) (hj : x.jobsRunning = 0) :
    ∀ t ∈ tags sq chains cq, t.1 ≠ r := by
  have hc := h.jobs r x hr
  rw [hj] at hc
  intro t ht he
  have := (countP_eq_zero.mp hc.symm) t ht
  simp [he] at this

theorem jobs_pos (h : RingInv runners sq chains cq n b) {t : ℕ × EventType} {x : CopyRunner}
    (ht : t ∈ tags sq chains cq) (hr : runners.get? t.1 = some x) : 0 < x.jobsRunning := by
  rw [h.jobs t.1 x hr, countP_pos_iff]
  exact ⟨t, ht, by simp⟩

/-- A pending request and a completion have different tags. -/
theorem req_ne_res (h : RingInv runners sq chains cq n b) {e : Sqe} {c : Cqe}
    (he : e ∈ pendingReqs sq chains) (hc : c ∈ cq) : e.tag ≠ c.tag :=
  (nodup_append.mp h.nodup).2.2 _ (mem_map_of_mem he) _ (mem_map_of_mem hc)

/-- A pending request is known by its tag. -/
theorem req_inj (h : RingInv runners sq chains cq n b) {e e' : Sqe}
    (he : e ∈ pendingReqs sq chains) (he' : e' ∈ pendingReqs sq chains) (ht : e.tag = e'.tag) :
    e = e' :=
  inj_on_of_nodup_map (nodup_append.mp h.nodup).1 he he' ht

/-- A completion is known by its tag. -/
theorem res_inj (h : RingInv runners sq chains cq n b) {c c' : Cqe} (hc : c ∈ cq) (hc' : c' ∈ cq)
    (ht : c.tag = c'.tag) : c = c' :=
  inj_on_of_nodup_map (nodup_append.mp h.nodup).2.1 hc hc' ht

/-- A runner has at most two requests. -/
theorem jobs_le (h : RingInv runners sq chains cq n b) {r : ℕ} {x : CopyRunner}
    (hr : runners.get? r = some x) : x.jobsRunning ≤ 2 := by
  rw [h.jobs r x hr, countP_eq_length_filter]
  have hsub : (tags sq chains cq).filter (·.1 == r) ⊆ [(r, .read), (r, .write)] := by
    intro t ht
    obtain ⟨-, he⟩ := mem_filter.mp ht
    obtain ⟨i, ev⟩ := t
    simp only [beq_iff_eq] at he
    subst he
    cases ev <;> simp
  simpa using (h.nodup.filter _).length_le_of_subset hsub

/-- The requests of the ring are all those of the runners alive. -/
theorem sum_jobs (h : RingInv runners sq chains cq n b) :
    (runners.sum fun _ x => x.jobsRunning) = (tags sq chains cq).length := by
  rw [Store.sum_congr (g := fun i _ => (tags sq chains cq).countP (·.1 == i))
    fun i x hi => h.jobs i x hi]
  have hlive := h.live
  generalize tags sq chains cq = l at hlive
  induction l with
  | nil => exact Store.sum_eq_zero fun _ _ _ => by simp
  | cons t l ih =>
    obtain ⟨x, hx⟩ := hlive t (by simp)
    have ih' := ih fun t' ht' => hlive t' (by simp [ht'])
    have hone : (runners.sum fun i _ => if t.1 = i then 1 else 0) = 1 := by
      have := Store.sum_erase (f := fun i (_ : CopyRunner) => if t.1 = i then 1 else 0) hx
      have hz : ((runners.erase t.1).sum fun i _ => if t.1 = i then 1 else 0) = 0 :=
        Store.sum_eq_zero fun i y hy => by
          rw [if_neg]
          rintro rfl
          simp at hy
      simp only [if_true] at this
      omega
    calc (runners.sum fun i _ => (t :: l).countP (·.1 == i))
        = runners.sum fun i _ => l.countP (·.1 == i) + if t.1 = i then 1 else 0 :=
          Store.sum_congr fun i _ _ => by simp [countP_cons]
      _ = l.length + 1 := by rw [Store.sum_add, hone, ih']
      _ = (t :: l).length := by simp

/-- Changes of the runners that keep their requests. -/
theorem of_runners (h : RingInv runners sq chains cq n b)
    (hlive : ∀ r x, runners.get? r = some x → 0 < x.jobsRunning →
      ∃ x', runners'.get? r = some x')
    (hsame : ∀ r x', runners'.get? r = some x' → (x'.jobsRunning = 0 ∧ x'.writeOffset = x'.offset ∧
        runners.get? r = none) ∨ ∃ x, runners.get? r = some x ∧
      x'.jobsRunning = x.jobsRunning ∧ x'.offset = x.offset ∧ x'.size = x.size ∧
      x'.writeOffset = x.writeOffset) :
    RingInv runners' sq chains cq n b := by
  have hold : ∀ {r x x'}, runners.get? r = some x → runners'.get? r = some x' →
      x'.chunkEnd = x.chunkEnd ∧ x'.writeOffset = x.writeOffset := by
    intro r x x' hx hx'
    rcases hsame r x' hx' with ⟨-, -, hn⟩ | ⟨y, hy, -, ho, hs, hw⟩
    · rw [hx] at hn; cases hn
    · rw [hx] at hy; cases hy
      exact ⟨by simp [CopyRunner.chunkEnd, ho, hs], hw⟩
  have hlive' : ∀ t ∈ tags sq chains cq, ∃ x, runners.get? t.1 = some x := h.live
  refine ⟨h.nodup, ?_, ?_, h.submissions, ?_, h.writeOp, ?_, ?_⟩
  · intro t ht
    obtain ⟨x, hx⟩ := h.live t ht
    exact hlive t.1 x hx (h.jobs_pos ht hx)
  · intro r x' hx'
    rcases hsame r x' hx' with ⟨hj, -, hn⟩ | ⟨x, hx, hj, -⟩
    · rw [hj, eq_comm, countP_eq_zero]
      intro t ht he
      obtain ⟨y, hy⟩ := h.live t ht
      rw [beq_iff_eq] at he
      rw [he, hn] at hy
      cases hy
    · rw [hj]; exact h.jobs r x hx
  · intro e he hw x' hx'
    obtain ⟨x, hx⟩ := h.live e.tag (mem_append_left _ (mem_map_of_mem he))
    obtain ⟨h1, h2⟩ := hold hx hx'
    rw [h1, h2]
    exact h.writeReq e he hw x hx
  · intro c hc hw hres x' hx'
    obtain ⟨x, hx⟩ := h.live c.tag (mem_append_right _ (mem_map_of_mem hc))
    obtain ⟨h1, h2⟩ := hold hx hx'
    rw [h1, h2]
    exact h.writeRes c hc hw hres x hx
  · intro r x' hx'
    rcases hsame r x' hx' with ⟨-, hw, -⟩ | ⟨x, hx, -, ho, hs, hw⟩
    · simp [CopyRunner.chunkEnd, hw]
    · have := h.written r x hx
      simpa [CopyRunner.chunkEnd, ho, hs, hw] using this

/-- A change of one runner that keeps its requests. -/
theorem of_modify (h : RingInv runners sq chains cq n b) {r : ℕ} {x : CopyRunner}
    {g : CopyRunner → CopyRunner} (hr : runners.get? r = some x)
    (hj : (g x).jobsRunning = x.jobsRunning) (ho : (g x).offset = x.offset)
    (hs : (g x).size = x.size) (hw : (g x).writeOffset = x.writeOffset) :
    RingInv (runners.modify r g) sq chains cq n b := by
  refine h.of_runners (fun j y hy _ => ?_) fun j y hy => .inr ?_
  · by_cases hjr : j = r
    · subst hjr; exact ⟨_, Store.get?_modify_self hr⟩
    · exact ⟨y, by rw [Store.get?_modify_of_ne hjr, hy]⟩
  · by_cases hjr : j = r
    · subst hjr
      rw [Store.get?_modify_self hr] at hy
      cases hy
      exact ⟨x, hr, hj, ho, hs, hw⟩
    · rw [Store.get?_modify_of_ne hjr] at hy
      exact ⟨y, hy, rfl, rfl, rfl, rfl⟩

/-- A runner without requests is destroyed. -/
theorem erase (h : RingInv runners sq chains cq n b) {r : ℕ} {x : CopyRunner}
    (hr : runners.get? r = some x) (hj : x.jobsRunning = 0) :
    RingInv (runners.erase r) sq chains cq n b := by
  refine h.of_runners (fun j y hy hpos => ?_) fun j y hy => .inr ?_
  · have hjr : j ≠ r := by
      rintro rfl
      rw [hr] at hy
      cases hy
      omega
    exact ⟨y, by rw [Store.get?_erase_of_ne hjr, hy]⟩
  · rw [Store.get?_erase] at hy
    split at hy
    · cases hy
    · exact ⟨y, hy, rfl, rfl, rfl, rfl⟩

/-- A completion is marked as seen. -/
theorem seen (h : RingInv runners sq chains cq n true) :
    RingInv runners sq chains cq (n - 1) false where
  nodup := h.nodup
  live := h.live
  jobs := h.jobs
  submissions := by rw [h.submissions]; rfl
  writeReq := h.writeReq
  writeOp := h.writeOp
  writeRes := h.writeRes
  written := h.written

/-- Requests that change their place, but not their number. -/
theorem of_perm (h : RingInv runners sq chains cq n b)
    (hreqs : ∀ e ∈ pendingReqs sq' chains', e ∈ pendingReqs sq chains)
    (hperm : tags sq' chains' cq' ~ tags sq chains cq)
    (hres : ∀ c ∈ cq', c ∈ cq ∨ (c.event = .write → 0 ≤ c.res → ∀ x,
      runners.get? c.runner = some x → x.writeOffset + c.res.toNat ≤ x.chunkEnd)) :
    RingInv runners sq' chains' cq' n b where
  nodup := hperm.nodup_iff.mpr h.nodup
  live t ht := h.live t (hperm.mem_iff.mp ht)
  jobs r x hr := by rw [hperm.countP_eq]; exact h.jobs r x hr
  submissions := by rw [hperm.length_eq]; exact h.submissions
  writeReq e he := h.writeReq e (hreqs e he)
  writeOp e he := h.writeOp e (hreqs e he)
  writeRes c hc := by
    rcases hres c hc with hc | hc
    · exact h.writeRes c hc
    · exact hc
  written := h.written

/-- A round queues its requests. -/
theorem batch (h : RingInv runners sq chains cq n false) {r : ℕ} {x : CopyRunner}
    (hr : runners.get? r = some x) (hj : x.jobsRunning = 0) {modes : DebugModes} {a b : ℕ}
    {src dst : Option Ino} {sqes : List Sqe} (he : sqes = x.requests modes a b src dst r) :
    RingInv (runners.modify r fun x => x.submitted modes a sqes.length) (sq ++ sqes) chains cq
      (n + sqes.length) false := by
  have hnew : sqes.map Sqe.tag <+ [(r, .read), (r, .write)] := he ▸ CopyRunner.requests_tags
  have hrunner : ∀ t ∈ sqes.map Sqe.tag, t.1 = r := fun t ht => by
    have := hnew.subset ht
    simp only [mem_cons, not_mem_nil, or_false] at this
    rcases this with rfl | rfl <;> rfl
  have hperm : tags (sq ++ sqes) chains cq ~ sqes.map Sqe.tag ++ tags sq chains cq := by
    simp only [tags, pendingReqs, map_append, append_assoc]
    exact perm_append_comm_assoc ..
  have hreqs : ∀ e ∈ pendingReqs (sq ++ sqes) chains, e ∈ sqes ∨ e ∈ pendingReqs sq chains := by
    intro e he
    simp only [pendingReqs, mem_append] at he ⊢
    tauto
  have hother : ∀ j, j ≠ r → (runners.modify r fun x => x.submitted modes a sqes.length).get? j =
      runners.get? j := fun j => Store.get?_modify_of_ne
  have hself := Store.get?_modify_self (g := fun x : CopyRunner => x.submitted modes a sqes.length) hr
  have hsame : ∀ j x', (runners.modify r fun x => x.submitted modes a sqes.length).get? j =
      some x' → ∃ y, runners.get? j = some y ∧ x'.writeOffset = y.writeOffset ∧
        x'.chunkEnd = y.chunkEnd ∧ x'.offset = y.offset := by
    intro j x' hx'
    by_cases hjr : j = r
    · subst hjr
      rw [hself] at hx'
      cases hx'
      exact ⟨x, hr, rfl, rfl, rfl⟩
    · rw [hother j hjr] at hx'
      exact ⟨x', hx', rfl, rfl, rfl⟩
  refine ⟨?_, ?_, ?_, ?_, ?_, ?_, ?_, ?_⟩
  · rw [hperm.nodup_iff, nodup_append]
    refine ⟨hnew.nodup (by simp), h.nodup, ?_⟩
    rintro t ht t' ht' rfl
    exact h.not_mem hr hj t ht' (hrunner t ht)
  · intro t ht
    rcases mem_append.mp (hperm.mem_iff.mp ht) with ht | ht
    · rw [hrunner t ht]; exact ⟨_, hself⟩
    · by_cases htr : t.1 = r
      · rw [htr]; exact ⟨_, hself⟩
      · rw [hother t.1 htr]; exact h.live t ht
  · intro j x' hx'
    rw [hperm.countP_eq, countP_append]
    by_cases hjr : j = r
    · subst hjr
      rw [hself] at hx'
      cases hx'
      have hz : (tags sq chains cq).countP (·.1 == j) = 0 := by rw [← h.jobs j x hr, hj]
      have hall : (sqes.map Sqe.tag).countP (·.1 == j) = sqes.length := by
        rw [← length_map (f := Sqe.tag), countP_eq_length]
        intro t ht
        simp [hrunner t ht]
      rw [hz, hall]
      simp [CopyRunner.submitted, hj]
    · rw [hother j hjr] at hx'
      have hz : (sqes.map Sqe.tag).countP (·.1 == j) = 0 := by
        rw [countP_eq_zero]
        intro t ht
        simp only [beq_iff_eq]
        rw [hrunner t ht]
        exact fun e => hjr e.symm
      rw [hz, Nat.zero_add]
      exact h.jobs j x' hx'
  · rw [hperm.length_eq, length_append, length_map, h.submissions]
    simp
    omega
  · intro e hmem hw x' hx'
    obtain ⟨y, hy, hwo, hce, -⟩ := hsame _ x' hx'
    rw [hwo, hce]
    rcases hreqs e hmem with hmem | hmem
    · have her : e.runner = r := hrunner e.tag (mem_map_of_mem hmem)
      rw [her, hr] at hy
      cases hy
      exact CopyRunner.requests_write_le (he ▸ hmem) hw
    · exact h.writeReq e hmem hw y hy
  · intro e hmem hw
    rcases hreqs e hmem with hmem | hmem
    · exact CopyRunner.requests_write_op (he ▸ hmem) hw
    · exact h.writeOp e hmem hw
  · intro c hc hw hres x' hx'
    obtain ⟨y, hy, hwo, hce, -⟩ := hsame _ x' hx'
    rw [hwo, hce]
    exact h.writeRes c hc hw hres y hy
  · intro j x' hx'
    obtain ⟨y, hy, hwo, hce, ho⟩ := hsame _ x' hx'
    rw [hwo, hce, ho]
    exact h.written j y hy

/-- `io_uring_submit` hands entries to the kernel. -/
theorem submit (h : RingInv runners sq chains cq n b) (k : ℕ) :
    RingInv runners (sq.drop k)
      (chains ++ (splitChains (sq.take k)).map fun reqs => ({ reqs } : Chain)) cq n b := by
  have hperm := pendingReqs_submit sq chains k
  refine h.of_perm (fun e he => hperm.mem_iff.mp he) ?_ fun c hc => .inl hc
  exact (hperm.map Sqe.tag).append_right _

/-- The kernel completes a request. -/
theorem kernel (h : RingInv runners sq chains cq n b) {i : ℕ} {c c' : Chain} {st st' : Storage}
    {res : ℤ} {cqe : Cqe} (hi : chains[i]? = some c)
    (hc : c.complete st res = some (c', st', cqe)) :
    RingInv runners sq (chains.set i c') (cq ++ [cqe]) n b := by
  obtain ⟨e, rest, hreqs, hreqs', rfl, hhow⟩ := Chain.complete_spec hc
  have hpend := pendingReqs_kernel sq hi hreqs hreqs'
  refine h.of_perm (fun d hd => hpend.mem_iff.mpr (mem_cons_of_mem _ hd))
    (tags_kernel hi hreqs hreqs') ?_
  intro d hd
  rcases mem_append.mp hd with hd | hd
  · exact .inl hd
  · rw [mem_singleton] at hd
    subst hd
    refine .inr fun hw hres x hx => ?_
    have hmem := hpend.mem_iff.mpr mem_cons_self
    have hle := h.writeReq e hmem hw x hx
    have hop := h.writeOp e hmem hw
    have : res ≤ e.len := by
      rcases hhow with ⟨-, hcan, -⟩ | ⟨-, hret, -⟩
      · dsimp only at hres; rw [hcan, ECANCELED] at hres; omega
      · unfold Sqe.mayReturn at hret
        split at hret
        · simp only [beq_iff_eq] at hret; omega
        · rename_i hr; exact absurd hr hop
        · dsimp only at hres
          simp only [Bool.or_eq_true, Bool.and_eq_true, decide_eq_true_eq] at hret
          omega
    dsimp only at hres ⊢
    omega

/-- A completion is handed to its runner. -/
theorem completion (h : RingInv runners sq chains cq n false) {i : ℕ} {c : Cqe} {x : CopyRunner}
    {strerror : Errno → List Char} {modes : DebugModes} {src dst : Path}
    (hc : cq[i]? = some c) (hr : runners.get? c.runner = some x) :
    RingInv (runners.modify c.runner fun x =>
      x.onCompletionEvent strerror modes src dst c.event c.res) sq chains (cq.eraseIdx i) n true := by
  have hperm := tags_completion sq chains hc
  have hnodup := hperm.nodup_iff.mp h.nodup
  have hnot : c.tag ∉ tags sq chains (cq.eraseIdx i) := (nodup_cons.mp hnodup).1
  have hself := Store.get?_modify_self
    (g := fun x : CopyRunner => x.onCompletionEvent strerror modes src dst c.event c.res) hr
  have hother : ∀ j, j ≠ c.runner → (runners.modify c.runner fun x =>
      x.onCompletionEvent strerror modes src dst c.event c.res).get? j = runners.get? j :=
    fun j => Store.get?_modify_of_ne
  have hsame : x.SameChunk (x.onCompletionEvent strerror modes src dst c.event c.res) :=
    CopyRunner.onCompletionEvent_same
  -- another request of the same runner is not a write when this one is
  have hoffset : ∀ ev, (c.runner, ev) ∈ tags sq chains (cq.eraseIdx i) → ev = .write →
      (x.onCompletionEvent strerror modes src dst c.event c.res).writeOffset = x.writeOffset := by
    intro ev hmem hw
    cases hev : c.event with
    | read => exact CopyRunner.onCompletionEvent_read_writeOffset
    | write =>
      refine absurd ?_ hnot
      rw [Cqe.tag, hev, ← hw]
      exact hmem
  refine ⟨(nodup_cons.mp hnodup).2, ?_, ?_, ?_, ?_, h.writeOp, ?_, ?_⟩
  · intro t ht
    by_cases htr : t.1 = c.runner
    · rw [htr]; exact ⟨_, hself⟩
    · rw [hother _ htr]
      exact h.live t (hperm.mem_iff.mpr (mem_cons_of_mem _ ht))
  · intro j x' hx'
    by_cases hjr : j = c.runner
    · subst hjr
      rw [hself] at hx'
      cases hx'
      have := h.jobs _ x hr
      rw [hperm.countP_eq, countP_cons] at this
      simp only [Cqe.tag, beq_self_eq_true, if_true] at this
      rw [CopyRunner.onCompletionEvent_jobs, this]
      rfl
    · rw [hother j hjr] at hx'
      have := h.jobs j x' hx'
      rw [hperm.countP_eq, countP_cons] at this
      rw [this, if_neg]
      · rfl
      · simpa [Cqe.tag] using fun e => hjr e.symm
  · have := h.submissions
    rw [hperm.length_eq] at this
    simpa using this
  · intro e he hw x' hx'
    by_cases her : e.runner = c.runner
    · rw [her, hself] at hx'
      cases hx'
      have hmem : (c.runner, e.event) ∈ tags sq chains (cq.eraseIdx i) :=
        her ▸ mem_append_left _ (mem_map_of_mem (f := Sqe.tag) he)
      rw [hoffset _ hmem hw, hsame.chunkEnd]
      exact h.writeReq e he hw x (her ▸ hr)
    · rw [hother _ her] at hx'
      exact h.writeReq e he hw x' hx'
  · intro d hd hw hres x' hx'
    by_cases hdr : d.runner = c.runner
    · rw [hdr, hself] at hx'
      cases hx'
      have hmem : (c.runner, d.event) ∈ tags sq chains (cq.eraseIdx i) :=
        hdr ▸ mem_append_right _ (mem_map_of_mem (f := Cqe.tag) hd)
      rw [hoffset _ hmem hw, hsame.chunkEnd]
      exact h.writeRes d (mem_of_mem_eraseIdx hd) hw hres x (hdr ▸ hr)
    · rw [hother _ hdr] at hx'
      exact h.writeRes d (mem_of_mem_eraseIdx hd) hw hres x' hx'
  · intro j x' hx'
    by_cases hjr : j = c.runner
    · subst hjr
      rw [hself] at hx'
      cases hx'
      have hx := h.written _ x hr
      rw [hsame.chunkEnd, hsame.offset]
      cases hev : c.event with
      | read => rw [CopyRunner.onCompletionEvent_read_writeOffset]; exact hx
      | write =>
        rcases CopyRunner.onCompletionEvent_write strerror modes src dst x c.res with
          hw | ⟨w, hw, hle⟩
        · rw [hw]; exact hx
        · have := h.writeRes c (mem_of_getElem? hc) hev (by omega) x hr
          rw [hw]
          omega
    · rw [hother j hjr] at hx'
      exact h.written j x' hx'

end RingInv

namespace CopyQueue

/-- The ring of a queue is consistent. -/
def State.Ring (s : State) : Prop :=
  RingInv s.runners s.sq s.chains s.cq s.submissionsRunning s.submit.inEvent

variable {cfg : Config} {s s' : State} {l : Label}

theorem ring_initial (storage : Storage) : State.Ring (initial cfg storage) where
  nodup := nodup_nil
  live t ht := absurd ht not_mem_nil
  jobs r x hr := by cases hr
  submissions := rfl
  writeReq e he := absurd he not_mem_nil
  writeOp e he := absurd he not_mem_nil
  writeRes c hc := absurd hc not_mem_nil
  written r x hr := by cases hr

@[simp] theorem afterClose_inEvent (caller : CloseCaller) (r : ℕ) (result : Option Error) :
    (afterClose caller r result).inEvent = caller.inEvent := by
  cases caller <;> cases result <;> rfl

@[simp] theorem closeNext_inEvent (caller : CloseCaller) (r : ℕ) (side : Side)
    (result : Option Error) : (closeNext caller r side result).inEvent = caller.inEvent := by
  cases side
  · rfl
  · exact afterClose_inEvent caller r result

@[simp] theorem afterError_inEvent (caller : ErrorCaller) :
    (afterError caller).inEvent = caller.inEvent := by
  cases caller <;> rfl

theorem afterDelete_inEvent (caller : DeleteCaller) (r : ℕ) :
    (afterDelete caller).inEvent = (SubmitPc.deleting r caller).inEvent := by
  cases caller <;> rfl

@[simp] theorem afterEnsure_inEvent (n r : ℕ) (side : Side) (x : CopyRunner) :
    (afterEnsure n r side x).inEvent = false := by
  unfold afterEnsure
  split
  · rfl
  · split <;> rfl

@[simp] theorem afterEnsureFailed_inEvent (n r : ℕ) (x : CopyRunner) (e : Error) :
    (afterEnsureFailed n r x e).inEvent = false := by
  unfold afterEnsureFailed
  split <;> rfl

@[simp] theorem afterEvent_inEvent (r : ℕ) (res : CopyRunner.RunnerResult) :
    (afterEvent r res).inEvent = true := by
  cases res <;> rfl

theorem ring_move (hm : Move cfg s l s') (ht : Threads cfg s) (h : State.Ring s) :
    State.Ring s' := by
  unfold State.Ring at h ⊢
  cases hm with
  | start hm hs =>
    have hb : s.submit.inEvent = false := by
      have := ht.idle hs
      cases hp : s.submit <;> rw [hp] at this <;> first | rfl | cases this
    rw [hb] at h
    exact h
  | partPush hm =>
    refine h.of_runners (fun r x hr _ => ⟨x, Store.get?_push_of_some hr⟩) fun r x' hr => ?_
    dsimp only [partStep] at hr
    rw [Store.get?_push] at hr
    split at hr
    · cases hr
      exact .inl ⟨rfl, rfl, by subst r; exact s.runners.fresh _ le_rfl⟩
    · exact .inr ⟨x', hr, rfl, rfl, rfl, rfl⟩
  | takeGive hp hs hr =>
    rw [hp] at h
    exact h.of_modify hr rfl rfl rfl rfl
  | batch hp hr hf hj he =>
    rw [hp] at h
    exact h.batch hr hj he
  | submit hp =>
    rw [hp] at h
    exact h.submit _
  | deleteShared hp hr hf hj | deleteLast hp hr hf hj =>
    rw [hp, ← afterDelete_inEvent] at h
    exact h.erase hr hj
  | completion hp hc hr hf hy =>
    rw [hp] at h
    dsimp only
    split <;> exact h.completion hc hr
  | seen hp =>
    rw [hp] at h
    exact h.seen
  | kernel hi hc => exact h.kernel hi hc
  | _ =>
    first
    | exact h
    | (have hp := ‹s.submit = _›
       rw [hp] at h
       first
       | exact h
       | (simp only [afterEnsure_inEvent, afterEnsureFailed_inEvent, afterClose_inEvent,
            closeNext_inEvent, afterError_inEvent, afterEvent_inEvent]
          exact h))

/-- The ring of a reachable queue is consistent. -/
theorem reachable_ring {ok : State → Label → Prop} (h : (system cfg).ReachIn ok s) :
    State.Ring s := by
  refine h.invariant ?_ fun s l s' hr hs _ hstep =>
    ring_move (step_move hstep).2 (reachable_threads hr) hs
  rintro s ⟨storage, rfl⟩
  exact ring_initial storage

end CopyQueue

end Wcp
