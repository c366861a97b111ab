import DeltaFs.Namespace
import DeltaFs.Relative

/-!
# Operations step by step

An operation on a path sends one request after the other, and what other clients do
happens in between. Here it is taken apart: a step sends at most one request, and the
names that are left are all it goes on with. `Api.run_eq` puts the steps together again.

The grain is that of a lookup: what a client does between two requests, with leases of its
own, nobody else can see.
-/

namespace DeltaFs

namespace Site

open FilesystemCli

/-! ## The operations

What a client is told to do, in one type, with what the caller's `Stat` holds. `Api.run` is the
code; `Api.op` is what it is for, on the abstract namespace. -/

/-- What an operation returns, by its status. -/
def outcome {α : Type} (st : Status) (a : α) : Except ErrCode α :=
  match st.code with
  | none => .ok a
  | some e => .error e

theorem outcome_of_code {α : Type} {st st' : Status} (h : st.code = st'.code) (a : α) :
    outcome st a = outcome st' a := by
  rw [outcome, outcome, h]

/-- The operations that take a path, with what the caller's `Stat` holds. -/
inductive Api where
  | mkfle (mode : UInt32) (stat : Stat)
  | mkdir (mode : UInt32) (stat : Stat)
  | lstat (stat : Stat)
  | atdir

/-- What they return. -/
inductive Reply where
  | stat (st : Stat)
  | handle (at? : Option At)

/-- What they are for. -/
def Api.op : Api → Namespace.Op
  | .mkfle mode _ => .mkfle mode
  | .mkdir mode _ => .mkdir mode
  | .lstat stat => .lstat stat.fileMode
  | .atdir => .atdir

/-- The path ends with slashes after its last component. -/
def tailing (path : AbsolutePath) : Bool :=
  !(components path.bytes).isEmpty && path.bytes.getLast? = some slash

theorem tailing_iff (path : AbsolutePath) : tailing path = true ↔ TailingSlashes path.bytes := by
  rw [tailingSlashes_iff path.absolute, tailing, Bool.and_eq_true, decide_eq_true_iff]
  refine and_congr_left fun _ => ?_
  cases components path.bytes with
  | nil => exact iff_of_false Bool.false_ne_true fun h => h rfl
  | cons c cs => exact iff_of_true rfl (List.cons_ne_nil c cs)

variable {σ Lease : Type}

/-- An operation of a client. -/
def Api.run (cli : PathClient σ Lease) (s : σ) (at? : At) (mem : Slice) :
    Api → Option (σ × Except ErrCode Reply)
  | .mkfle mode stat =>
    (cli.mkfle s at? mem mode stat).map fun x => (x.1, (outcome x.2.1 x.2.2).map .stat)
  | .mkdir mode stat =>
    (cli.mkdir s at? mem mode stat).map fun x => (x.1, (outcome x.2.1 x.2.2).map .stat)
  | .lstat stat => (cli.lstat s at? mem stat).map fun x => (x.1, (outcome x.2.1 x.2.2).map .stat)
  | .atdir => (cli.atdir s at? mem).map fun x => (x.1, (outcome x.2.1 x.2.2).map .handle)

/-- What it does beneath the parent directory: its last step. -/
def Api.last (cli : PathClient σ Lease) (s : σ) (parentDir : Lease) (tgt : Slice) (tail : Bool) :
    Api → σ × Except ErrCode Reply
  | .mkfle mode stat =>
    if tgt ≠ [] ∧ tail = false then
      let x := cli.mkfle1 s (cli.rep parentDir) tgt mode stat
      (x.1, (outcome x.2.1 x.2.2).map .stat)
    else (s, .error .fileExpected)
  | .mkdir mode stat =>
    if tgt ≠ [] then
      let x := cli.mkdir1 s (cli.rep parentDir) tgt mode stat
      (x.1, (outcome x.2.1 x.2.2).map .stat)
    else (s, .error .alreadyExists)
  | .lstat stat =>
    if tgt ≠ [] then
      let x := cli.lstat1 s (cli.rep parentDir) tgt stat
      if tail ∧ isDir x.2.2.fileMode = false then (x.1, .error .dirExpected)
      else (x.1, (outcome x.2.1 x.2.2).map .stat)
    else (s, .ok (.stat cli.rtstat))
  | .atdir => (s, .ok (.handle (some (if tgt ≠ [] then some (cli.rep parentDir, tgt) else none))))

/-! ## Steps

Between two requests a client changes only its own memory, so an operation is cut into steps at
its requests: the relative root, one lookup for each name but the last, and the last request.
The steps one after the other are the operation (`Api.run_eq`), so nothing is lost by cutting
it. -/

/-- How far an operation is. -/
inductive Progress (Lease : Type) where
  /-- it is to find the relative root -/
  | entered (at? : At)
  /-- the names `cs` are left, beneath a lease -/
  | walking (l : Lease) (cs : List Slice)
  /-- it returns -/
  | finished (r : Except ErrCode Reply)

/-- A step of an operation on a path with the names `cs`. -/
def Progress.step (cli : PathClient σ Lease) (api : Api) (tail : Bool) (cs : List Slice) (s : σ) :
    Progress Lease → σ × Progress Lease
  | .entered at? =>
    match cli.start s at? with
    | (s, .error e) => (s, .finished (.error e.1))
    | (s, .ok rr) => (s, .walking rr cs)
  | .walking l (c :: c' :: cs) =>
    match cli.lokup s (cli.rep l) c .kRegular with
    | (s, .error e) => (cli.release s l, .finished (.error e.1))
    | (s, .ok tmp) => (cli.release s l, .walking tmp (c' :: cs))
  | .walking l [c] =>
    let x := api.last cli s l c tail
    (cli.release x.1 l, .finished x.2)
  | .walking l [] =>
    let x := api.last cli s l [] tail
    (cli.release x.1 l, .finished x.2)
  | .finished r => (s, .finished r)

/-- Step after step. -/
def Progress.steps (cli : PathClient σ Lease) (api : Api) (tail : Bool) (cs : List Slice) :
    Nat → σ × Progress Lease → σ × Progress Lease
  | 0, x => x
  | n + 1, x => steps cli api tail cs n (x.2.step cli api tail cs x.1)

section Steps

variable (cli : PathClient σ Lease) (api : Api) (tail : Bool) (cs : List Slice)

/-- The last step. -/
theorem Progress.step_last (s : σ) (l : Lease) (left : List Slice) (h : left.length ≤ 1) :
    Progress.step cli api tail cs s (.walking l left) =
      (cli.release (api.last cli s l (left.getLastD []) tail).1 l,
        .finished (api.last cli s l (left.getLastD []) tail).2) := by
  cases left with
  | nil => rfl
  | cons c left =>
    obtain rfl := List.eq_nil_of_length_eq_zero (Nat.le_zero.mp (Nat.le_of_succ_le_succ h))
    rfl

/-- An operation on the names `left`, beneath a lease. -/
def Api.under (s : σ) (l : Lease) (left : List Slice) : σ × Except ErrCode Reply :=
  let r := resolveComponents cli.toLeaseClient s l left
  match r.2.status with
  | .ok =>
    let x := api.last cli r.1 r.2.parentDir (left.getLastD []) tail
    (cli.release x.1 r.2.parentDir, x.2)
  | .err c _ => (cli.release r.1 r.2.parentDir, .error c)

/-- An operation on the names of a path. -/
def Api.whole (s : σ) (at? : At) : σ × Except ErrCode Reply :=
  match cli.start s at? with
  | (s, .error e) => (s, .error e.1)
  | (s, .ok rr) => api.under cli tail s rr cs

/-- Nothing happens after the end. -/
theorem Progress.steps_finished (n : Nat) (s : σ) (r : Except ErrCode Reply) :
    Progress.steps cli api tail cs n (s, .finished r) = (s, .finished r) := by
  induction n with
  | zero => rfl
  | succ n ih => exact ih

/-- The steps beneath a lease, one for each name. -/
theorem Progress.steps_walking (s : σ) (l : Lease) (left : List Slice) (n : Nat) (hn : left.length ≤ n) :
    Progress.steps cli api tail cs (n + 1) (s, .walking l left) =
      ((api.under cli tail s l left).1, .finished (api.under cli tail s l left).2) := by
  induction s, l, left using resolveComponents.induct cli.toLeaseClient generalizing n with
  | case1 s l =>
    rw [Progress.steps, Progress.step_last cli api tail cs s l [] (Nat.zero_le 1), steps_finished]
    rfl
  | case2 s l c =>
    rw [Progress.steps, Progress.step_last cli api tail cs s l [c] (Nat.le_refl 1), steps_finished]
    rfl
  | case3 s l c c' left s₁ tmp hlokup ih =>
    obtain ⟨n, rfl⟩ : ∃ m, n = m + 1 := ⟨n - 1, by rw [List.length_cons] at hn; omega⟩
    have hlast : (c :: c' :: left).getLastD [] = (c' :: left).getLastD [] := rfl
    rw [Progress.steps]
    simp only [Progress.step, hlokup]
    rw [ih n (Nat.le_of_succ_le_succ hn), Api.under, Api.under, resolveComponents, hlokup, hlast]
  | case4 s l c c' left s₁ e hlokup =>
    rw [Progress.steps]
    simp only [Progress.step, hlokup]
    rw [steps_finished, Api.under, resolveComponents, hlokup]

/-- **All steps** of an operation on a path. As many as there are names and two more,
after which it is the operation as `Paths` has it. -/
theorem Progress.steps_entered (s : σ) (at? : At) :
    Progress.steps cli api tail cs (cs.length + 2) (s, .entered at?) =
      ((api.whole cli tail cs s at?).1, .finished (api.whole cli tail cs s at?).2) := by
  rw [Progress.steps, Api.whole]
  simp only [Progress.step]
  generalize cli.start s at? = r
  obtain ⟨s, found⟩ := r
  cases found with
  | error e => exact steps_finished ..
  | ok rr => exact steps_walking cli api tail cs s rr cs _ (Nat.le_refl _)

/-- What the operations share. -/
theorem withParent_outcome {α : Type} (path : AbsolutePath) (s : σ) (at? : At) (ret : α) (k : α → Reply)
    (f : σ → Lease → Slice → Bool → σ × Status × α)
    (hf : ∀ s l tgt, api.last cli s l tgt (tailing path) =
      ((f s l tgt (tailing path)).1,
        (outcome (f s l tgt (tailing path)).2.1 (f s l tgt (tailing path)).2.2).map k)) :
    (cli.withParent s at? (cstr path.bytes) ret f).map (fun x => (x.1, (outcome x.2.1 x.2.2).map k)) =
      some (api.whole cli (tailing path) (components path.bytes) s at?) := by
  obtain ⟨x, t, hx, ht, hstate, hcode, hval⟩ := cli.withParent_eq path.noNul path.absolute s at? ret f
  obtain rfl : t = tailing path := Bool.eq_iff_iff.mpr (ht.trans (tailing_iff path).symm)
  rw [hx, Option.map_some, outcome_of_code hcode, hstate, hval, PathClient.beneath, Api.whole]
  congr 1
  generalize cli.start s at? = r
  obtain ⟨s, found⟩ := r
  cases found with
  | error e => rfl
  | ok rr =>
    simp only [Api.under]
    cases (resolveComponents cli.toLeaseClient s rr (components path.bytes)).2.status with
    | ok => simp only [hf]
    | err c msg => rfl

/-- **An operation** is its steps. The code is written as loops within calls; here they are
unrolled to one step for each request. -/
theorem Api.run_eq (path : AbsolutePath) (s : σ) (at? : At) :
    api.run cli s at? (cstr path.bytes) =
      some (api.whole cli (tailing path) (components path.bytes) s at?) := by
  cases api with
  | mkfle mode stat =>
    refine withParent_outcome cli _ path s at? stat .stat _ fun s l tgt => ?_
    rw [Api.last]
    split <;> rfl
  | mkdir mode stat =>
    refine withParent_outcome cli _ path s at? stat .stat _ fun s l tgt => ?_
    rw [Api.last]
    split <;> rfl
  | lstat stat =>
    refine withParent_outcome cli _ path s at? stat .stat _ fun s l tgt => ?_
    rw [Api.last]
    split
    · dsimp only
      split <;> rfl
    · rfl
  | atdir =>
    refine withParent_outcome cli _ path s at? none .handle _ fun s l tgt => ?_
    rw [Api.last]
    split <;> rfl

end Steps

end Site

end DeltaFs
