import WcpVerified.CopyRunner
import WcpVerified.Library.ByteImage

/-!
# The kernel's side of the ring

`io_uring_submit` hands the first queued entries to the kernel. Entries joined by `IOSQE_IO_LINK`
form a chain, and a chain ends at the last entry that a call consumes. The kernel runs the chains
independently of each other, each in order; a request that fails or transfers less than it was asked
to breaks its chain, and the rest of the chain completes with `-ECANCELED` without being run.
-/

namespace Wcp

open ByteImage

/-- Requests the kernel has accepted and that wait for each other. -/
structure Chain where
  reqs : List Sqe
  /-- A request of the chain did not fully succeed. -/
  broken : Bool := false
deriving DecidableEq

/-- A completion queue entry. -/
structure Cqe where
  runner : ℕ
  event : EventType
  res : ℤ
deriving DecidableEq

/-- The chains among the entries consumed by one call. -/
def splitChains : List Sqe → List (List Sqe)
  | [] => []
  | e :: es =>
    if e.link then
      match splitChains es with
      | [] => [[e]]
      | c :: cs => (e :: c) :: cs
    else [e] :: splitChains es

/-- Memory and disk: what requests read and write. -/
structure Storage where
  mem : ℕ → UInt8
  disk : Ino → List UInt8

/-- Whether the kernel may complete an unbroken request with the result `res`. -/
def Sqe.mayReturn (e : Sqe) (st : Storage) (res : ℤ) : Bool :=
  match e.op with
  | .nop => res == 0
  | .read => decide (res < 0) || match e.fd with
    | none => false
    | some ino => decide (res ≤ e.len) && decide (res ≤ ((st.disk ino).length - e.off : ℕ))
        && decide (res < 2 ^ 31)
  | .write => decide (res < 0) || (e.fd.isSome && decide (res ≤ e.len) && decide (res < 2 ^ 31))

/-- What completing an unbroken request with the result `res` does to memory and disk. -/
def Sqe.effect (e : Sqe) (st : Storage) (res : ℤ) : Storage :=
  match e.op, e.fd with
  | .read, some ino =>
    if res < 0 then st
    else { st with mem := store st.mem e.addr (pread (st.disk ino) e.off res.toNat) }
  | .write, some ino =>
    if res < 0 then st
    else { st with disk :=
      Function.update st.disk ino (pwrite (st.disk ino) e.off (load st.mem e.addr res.toNat)) }
  | _, _ => st

/-- Whether a result lets the rest of the chain run. -/
def Sqe.succeeded (e : Sqe) (res : ℤ) : Bool :=
  match e.op with
  | .nop => true
  | _ => res == e.len

/-- The completion of the first request of a chain: the rest of the chain, the storage afterwards
and the completion posted. `none` if the kernel cannot answer so. -/
def Chain.complete (c : Chain) (st : Storage) (res : ℤ) : Option (Chain × Storage × Cqe) :=
  match c.reqs with
  | [] => none
  | e :: rest =>
    if c.broken then
      if res = -ECANCELED then
        some ({ c with reqs := rest }, st, { runner := e.runner, event := e.event, res })
      else none
    else if e.mayReturn st res then
      some ({ reqs := rest, broken := !e.succeeded res }, e.effect st res,
        { runner := e.runner, event := e.event, res })
    else none

end Wcp
