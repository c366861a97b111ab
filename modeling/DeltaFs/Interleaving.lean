import DeltaFs.Atomicity
import DeltaFs.Refinement
import DeltaFs.Transition

/-!
# Clients at the same time

Between two steps of an operation on a path other clients take steps of theirs, and make
files and directories while it is on its way. But nothing is ever removed: a path that
has been followed leads where it led (`Tree.Extends.leads`). So an operation does at its
last step what it would do in the namespace at that moment, and whatever the clients do
at the same time, they do it one operation after the other (`operations_linearizable`).

A client is in the middle of one operation at most. That a server does one request
after the other is shown in `Distributed`. The clients reach the servers as in
`Refinement`, in their process or over stubs, and a step that sends a request which does
not fit its buffer is none: a run is one in which nobody has stopped.

`Refines` relates what there is to the namespace, and has two parts that one client
alone does not need. `Doing` says of an operation that has not taken effect that the
names it has followed lead where its lease is, which nobody can change. And handles that
are about to be returned count as opened from the moment the operation has taken effect
(`Proc.opening`), since the namespace has them from then on.
-/

namespace DeltaFs

namespace Site

namespace Clients

open FilesystemCli Namespace Linearization

/-! ## Steps

What can happen: a client starts an operation, goes on with one step of it, or returns what
has come of it. What is next for an operation is in its `Progress`, of `Steps`. -/

/-- What a client is told to do. -/
structure Task where
  client : Nat
  who : User
  /-- the handle the path starts from, counted from the first the client opened -/
  handle : Option Nat
  path : AbsolutePath
  api : Api

/-- An operation that has not returned. -/
structure Active where
  num : Nat
  task : Task
  progress : Progress FilesystemCli.Handle

/-- What a client shows of a reply. -/
abbrev Result : Type := Except ErrCode (Option Attr)

/-- Entries of the log. -/
abbrev Entry : Type := Event Task Result (Task × Result)

/-- What it returns, once it is known. -/
def Active.reply? (op : Active) : Option (Except ErrCode Reply) :=
  match op.progress with
  | .finished r => some r
  | _ => none

/-- The next step, when the clocks of the servers show `ts` and a stat that nobody has
initialised holds `junk`. -/
def Active.next {cl : Cluster} (a : Access cl) (lru : Nat) (ts : UInt64) (junk : Stat)
    (s : Client (Option Cluster.Contents)) (op : Active) : Client (Option Cluster.Contents) × Active :=
  let x := op.progress.step (client a lru op.task.client ts junk op.task.who) op.task.api
    (tailing op.task.path) (components op.task.path.bytes) s
  (x.1, { op with progress := x.2 })

/-- A client, with the handles it has opened. -/
structure Proc where
  client : Client (Option Cluster.Contents)
  handles : List At
  active : Option Active

/-- The servers and the clients. -/
structure State where
  contents : Cluster.Contents
  procs : Nat → Proc
  /-- how many operations there have been -/
  count : Nat

/-- New clients. -/
def State.start (cl : Cluster) (lru : Nat) (d : Cluster.Contents) (clocks : Nat → Nat → UInt64) : State where
  contents := d
  procs j := ⟨Client.start (options cl lru j) (some d) (clocks j), [], none⟩
  count := 0

/-- What a step is. -/
inductive Label where
  /-- a client starts an operation -/
  | call (task : Task)
  /-- the next step of client `j` -/
  | go (j : Nat) (ts : UInt64) (junk : Stat)
  /-- the operation of client `j` returns -/
  | ret (j : Nat)

/-- Handles that come with a reply. -/
def openedBy (r : Except ErrCode Reply) : List At := (r.toOption.map Reply.opened).getD []

/-- One step. The last step of an operation is logged as the point where it takes effect. -/
def State.step {cl : Cluster} (a : Access cl) (lru : Nat) (st : State) : Label → Option (State × List Entry)
  | .call task =>
    let p := st.procs task.client
    match p.active with
    | some _ => none
    | none =>
      let op : Active := ⟨st.count, task, .entered (pick task.handle p.handles)⟩
      some ({ st with
        procs := Function.update st.procs task.client { p with active := some op }
        count := st.count + 1 }, [.inv st.count task])
  | .go j ts junk =>
    let p := st.procs j
    match p.active with
    | none => none
    | some op =>
      match op.reply? with
      | some _ => none
      | none =>
        let x := op.next a lru ts junk { p.client with content := some st.contents }
        x.1.content.map fun d => ({ st with
          contents := d
          procs := Function.update st.procs j { p with client := x.1, active := some x.2 } },
          x.2.reply?.toList.map fun r => .pt op.num (op.task, r.map Reply.seen))
  | .ret j =>
    let p := st.procs j
    match p.active with
    | none => none
    | some op =>
      match op.reply? with
      | none => none
      | some r =>
        some ({ st with
          procs := Function.update st.procs j { p with handles := p.handles ++ openedBy r, active := none } },
          [.ret op.num (r.map Reply.seen)])

/-- The clients and the servers. -/
def system {cl : Cluster} (a : Access cl) (lru : Nat) (d : Cluster.Contents) (clocks : Nat → Nat → UInt64) :
    TransitionSystem State Label Entry where
  init st := st = .start cl lru d clocks
  step := State.step a lru

/-- Every server has numbers left for files. -/
def HasRoom (cl : Cluster) (st : State) : Prop := ∀ i < cl.n, (st.contents i).inoq.toNat + 1 < 2 ^ 56

instance (cl : Cluster) (st : State) : Decidable (HasRoom cl st) := Nat.decidableBallLT ..

/-- The requests of an operation fit. -/
def Label.fits {cl : Cluster} (a : Access cl) : Label → Bool
  | .call task => a.fitsPath task.api (components task.path.bytes)
  | _ => true

/-- What steps are about: clients whose requests fit, at servers that have numbers left. -/
abbrev Within {cl : Cluster} (a : Access cl) (st : State) (k : Label) : Prop :=
  HasRoom cl st ∧ k.fits a = true

/-! ## What they do

The relation to the namespace is kept by every step, and only the step that settles an
operation changes the tree or the handles. -/

/-- The tree, and the handles of each client. -/
structure View where
  tree : Tree
  handles : Nat → List Tree.Handle

/-- What an operation is in the namespace, and what its client is told. -/
def View.step {cl : Cluster} (a : Access cl) (v : View) (task : Task) : View × Result :=
  let cs := components task.path.bytes
  let x := v.tree.perform (cl.skipPermChecks task.client) task.who (pick task.handle (v.handles task.client))
    cs (tailing task.path) task.api.op
  ({ tree := x.1
     handles := Function.update v.handles task.client
      (v.handles task.client ++ (x.2.toOption.map opened).getD []) },
    x.2.map (seen (a.told task.api cs.getLast?)))

/-- The namespace, for clients that take turns. -/
abbrev namespaceSpec {cl : Cluster} (a : Access cl) : Spec View (Task × Result) := .ofStep (View.step a)

/-- The handles an operation will return, once it has taken effect. -/
def Proc.opening (p : Proc) : List At :=
  match p.active.bind Active.reply? with
  | some r => openedBy r
  | none => []

/-- An operation has taken effect, or is on its way. -/
structure Doing {cl : Cluster} (a : Access cl) (d : Cluster.Contents) (j : Nat) (hs : List Tree.Handle)
    (op : Active) : Prop where
  client : op.task.client = j
  fits : a.fitsPath op.task.api (components op.task.path.bytes) = true
  way : op.reply? = none → OnWay a d (cl.skipPermChecks j) op.task.who (pick op.task.handle hs)
    (components op.task.path.bytes) op.progress

/-- The servers and the clients are what the namespace is. -/
structure Refines {cl : Cluster} (a : Access cl) (st : State) (v : View) : Prop where
  sound : cl.Sound st.contents
  clients : ∀ j, ({ (st.procs j).client with content := some st.contents } : Client _).Inv (Access.Leased cl)
  handles : ∀ j, List.Forall₂ (Opened a st.contents) (v.handles j)
    ((st.procs j).handles ++ (st.procs j).opening)
  doing : ∀ j op, (st.procs j).active = some op → Doing a st.contents j (v.handles j) op
  tree : v.tree = cl.tree st.contents

section Steps

variable {cl : Cluster} {a : Access cl} {d d' : Cluster.Contents} {st : State} {v : View} {l : List Entry}

/-- What others do does not lead an operation astray. -/
theorem onWay_kept (hkept : Kept cl d d') (hx : (cl.tree d).Extends (cl.tree d')) {skip : Bool} {u : User}
    {h : Tree.Handle} {cs : List Slice} {p : Progress FilesystemCli.Handle}
    (hway : OnWay a d skip u h cs p) : OnWay a d' skip u h cs p := by
  cases hway with
  | entered ho => exact .entered (ho.kept hkept)
  | walking hleads hstands hcut hnil => exact .walking (hx.leads hleads) (hkept.stands hstands) hcut hnil

theorem Doing.kept (hkept : Kept cl d d') (hx : (cl.tree d).Extends (cl.tree d')) {j : Nat}
    {hs : List Tree.Handle} {op : Active} (h : Doing a d j hs op) : Doing a d' j hs op :=
  ⟨h.client, h.fits, fun hno => onWay_kept hkept hx (h.way hno)⟩

/-- **Client `j` has moved**; the others are where they were. What others have learned stays
true, since the tree has only grown. -/
theorem Refines.set (h : Refines a st v) (hkept : Kept cl st.contents d')
    (hx : (cl.tree st.contents).Extends (cl.tree d')) {j : Nat} {p : Proc} {v' : View}
    (hclient : ({ p.client with content := some d' } : Client _).Inv (Access.Leased cl))
    (hhandles : List.Forall₂ (Opened a d') (v'.handles j) (p.handles ++ p.opening))
    (hdoing : ∀ op, p.active = some op → Doing a d' j (v'.handles j) op)
    (hother : ∀ k, k ≠ j → v'.handles k = v.handles k) (htree : v'.tree = cl.tree d') (count : Nat) :
    Refines a ⟨d', Function.update st.procs j p, count⟩ v' where
  sound := hkept.sound
  clients k := by
    by_cases hk : k = j
    · subst hk
      simp only [Function.update_self]
      exact hclient
    · simp only [Function.update_of_ne hk]
      exact inv_kept hkept (h.clients k)
  handles k := by
    by_cases hk : k = j
    · subst hk
      simp only [Function.update_self]
      exact hhandles
    · simp only [Function.update_of_ne hk]
      rw [hother k hk]
      exact (h.handles k).imp fun _ _ ho => ho.kept hkept
  doing k op hop := by
    by_cases hk : k = j
    · subst hk
      simp only [Function.update_self] at hop
      exact hdoing op hop
    · simp only [Function.update_of_ne hk] at hop
      rw [hother k hk]
      exact (h.doing k op hop).kept hkept hx
  tree := htree

/-- No handles are about to be returned. -/
theorem Proc.opening_of_none {p : Proc} (h : p.active.bind Active.reply? = none) : p.opening = [] := by
  rw [Proc.opening, h]

/-- **An operation starts.** Nothing has been done in the tree yet, and the handle it is
given is one that the client has. -/
theorem Refines.call (h : Refines a st v) {task : Task} (hidle : (st.procs task.client).active = none)
    (hfits : a.fitsPath task.api (components task.path.bytes) = true) :
    Refines a ⟨st.contents, Function.update st.procs task.client { st.procs task.client with
      active := some ⟨st.count, task, .entered (pick task.handle (st.procs task.client).handles)⟩ },
      st.count + 1⟩ v := by
  have hhandles := h.handles task.client
  rw [Proc.opening_of_none (by rw [hidle]; rfl), List.append_nil] at hhandles
  refine h.set (.refl h.sound) (.refl _) ?_ ?_ (fun op hop => ?_) (fun _ _ => rfl) h.tree _
  · exact h.clients task.client
  · rw [Proc.opening_of_none rfl, List.append_nil]
    exact hhandles
  · obtain rfl := Option.some.inj hop
    exact ⟨rfl, hfits, fun _ => .entered (pick_opened hhandles task.handle)⟩

/-- **An operation returns.** What it returns was settled by its last step; a handle it
has opened is one of the client's from now on. -/
theorem Refines.ret (h : Refines a st v) {j : Nat} {op : Active} (hop : (st.procs j).active = some op)
    {r : Except ErrCode Reply} (hr : op.reply? = some r) :
    Refines a ⟨st.contents, Function.update st.procs j { st.procs j with
      handles := (st.procs j).handles ++ openedBy r, active := none }, st.count⟩ v := by
  have hhandles := h.handles j
  have hopening : (st.procs j).opening = openedBy r := by rw [Proc.opening, hop, Option.bind_some, hr]
  rw [hopening] at hhandles
  refine h.set (.refl h.sound) (.refl _) ?_ ?_ (fun op hop => ?_) (fun _ _ => rfl) h.tree _
  · exact h.clients j
  · rw [Proc.opening_of_none rfl, List.append_nil]
    exact hhandles
  · cases hop

/-- **An operation goes on**, or does what it does in the namespace. Before its last step an
operation only learns where it is, and the namespace does not change; with the last one it
does in the namespace what it does at the servers. -/
theorem Refines.go (hset : cl.SetUp) (lru : Nat) (hroom : HasRoom cl st) (h : Refines a st v) {j : Nat}
    {op : Active} (hop : (st.procs j).active = some op) (hno : op.reply? = none) (ts : UInt64) (junk : Stat)
    {x : Client (Option Cluster.Contents) × Active}
    (hx : op.next a lru ts junk { (st.procs j).client with content := some st.contents } = x) :
    ∃ d' v', x.1.content = some d' ∧ Refines a ⟨d',
        Function.update st.procs j { st.procs j with client := x.1, active := some x.2 }, st.count⟩ v' ∧
      x.2.num = op.num ∧ x.2.task = op.task ∧
      (x.2.reply? = none ∧ v' = v ∨
        ∃ r, x.2.reply? = some r ∧ v.step a op.task = (v', r.map Reply.seen)) := by
  obtain ⟨rfl, hfits, hway⟩ := h.doing j op hop
  have hhandles := h.handles op.task.client
  rw [Proc.opening_of_none (by rw [hop]; exact hno), List.append_nil] at hhandles
  have hstep := OnWay.step hset h.sound lru op.task.client ts junk op.task.who hroom rfl
    (h.clients op.task.client) (nil_notMem_components _) (hway hno) (tailing op.task.path) hfits
  rw [Active.next] at hx
  obtain rfl := hx
  dsimp only at hstep ⊢
  generalize op.progress.step (client a lru op.task.client ts junk op.task.who) op.task.api
    (tailing op.task.path) (components op.task.path.bytes)
    { (st.procs op.task.client).client with content := some st.contents } = x at hstep
  obtain ⟨s₁, p₁⟩ := x
  dsimp only at hstep ⊢
  rcases hstep with ⟨hinv, hcontent, hway'⟩ | ⟨r, rfl, hinv, d', hcontent, hkept, htree, hans⟩
  · have hno' : (⟨op.num, op.task, p₁⟩ : Active).reply? = none := by
      cases hway' with
      | entered _ => rfl
      | walking _ _ _ _ => rfl
    refine ⟨st.contents, v, hcontent, ?_, rfl, rfl, .inl ⟨hno', rfl⟩⟩
    refine h.set (.refl h.sound) (.refl _) ?_ ?_ (fun op' hop' => ?_) (fun _ _ => rfl) h.tree _
    · rw [← hcontent]
      exact hinv
    · have hopening : ({ st.procs op.task.client with
          client := s₁, active := some ⟨op.num, op.task, p₁⟩ } : Proc).opening = [] :=
        Proc.opening_of_none hno'
      rw [hopening, List.append_nil]
      exact hhandles
    · obtain rfl := Option.some.inj hop'
      exact ⟨rfl, hfits, fun _ => hway'⟩
  · have hextends : (cl.tree st.contents).Extends (cl.tree d') := by
      rw [← htree]
      exact Tree.extends_perform _ _ _ _ _ _ _
    refine ⟨d', (v.step a op.task).1, hcontent, ?_, rfl, rfl, .inr ⟨r, rfl, ?_⟩⟩
    · refine h.set hkept hextends (by rw [← hcontent]; exact hinv) ?_ (fun op' hop' => ?_)
        (fun k hk => Function.update_of_ne hk _ _) ?_ _
      · rw [View.step, h.tree]
        simp only [Function.update_self]
        exact List.rel_append (hhandles.imp fun _ _ ho => ho.kept hkept) hans.opened
      · obtain rfl := Option.some.inj hop'
        exact ⟨rfl, hfits, fun hno' => by cases hno'⟩
      · rw [View.step, h.tree]
        exact htree
    · rw [hans.seen, View.step, h.tree]

/-! ## The log

Each operation touches the namespace once, when it is settled, and returns afterwards what
it was told then. `Logs` is `OnceLog`, with the operations that are under way. -/

/-- What a log says of the operation of a client. -/
def Noted (l : List Entry) (op : Active) : Prop :=
  Pending l op.num op.task (op.reply?.map fun r => r.map Reply.seen)

/-- What the log says of the operations. -/
structure Logs (st : State) (l : List Entry) : Prop where
  once : OnceLog l
  below : ∀ e ∈ l, e.id < st.count
  noted : ∀ j op, (st.procs j).active = some op → Noted l op
  apart : ∀ {j k op op'}, (st.procs j).active = some op → (st.procs k).active = some op' → op.num = op'.num →
    j = k

theorem Logs.start (cl : Cluster) (lru : Nat) (d : Cluster.Contents) (clocks : Nat → Nat → UInt64) :
    Logs (.start cl lru d clocks) [] :=
  ⟨.nil, fun e he => absurd he List.not_mem_nil, fun j op hop => (by cases hop), fun hop => (by cases hop)⟩

/-- **Client `j` has moved**, and its operation has the number `n`. -/
theorem Logs.set (h : Logs st l) {l' : List Entry} (honce : OnceLog l') {count : Nat}
    (hbelow : ∀ e ∈ l', e.id < count) (n : Nat) {j : Nat} {p : Proc}
    (hnoted : ∀ op, p.active = some op → op.num = n ∧ Noted l' op)
    (hother : ∀ k op, k ≠ j → (st.procs k).active = some op → op.num ≠ n ∧ Noted l' op) :
    Logs ⟨d', Function.update st.procs j p, count⟩ l' where
  once := honce
  below := hbelow
  noted k op hop := by
    by_cases hk : k = j
    · subst hk
      simp only [Function.update_self] at hop
      exact (hnoted op hop).2
    · simp only [Function.update_of_ne hk] at hop
      exact (hother k op hk hop).2
  apart {k k' op op'} hop hop' hnum := by
    by_cases hk : k = j
    · by_cases hk' : k' = j
      · rw [hk, hk']
      · subst hk
        simp only [Function.update_self] at hop
        simp only [Function.update_of_ne hk'] at hop'
        exact absurd (hnum.symm.trans (hnoted op hop).1) (hother k' op' hk' hop').1
    · simp only [Function.update_of_ne hk] at hop
      by_cases hk' : k' = j
      · subst hk'
        simp only [Function.update_self] at hop'
        exact absurd (hnum.trans (hnoted op' hop').1) (hother k op hk hop).1
      · simp only [Function.update_of_ne hk'] at hop'
        exact h.apart hop hop' hnum

/-- Operations are numbered from the first on. -/
theorem Logs.num_lt (h : Logs st l) {j : Nat} {op : Active} (hop : (st.procs j).active = some op) :
    op.num < st.count := h.below _ (h.noted j op hop).inv

/-- An entry of an operation says nothing of those of other clients. -/
theorem Logs.others (h : Logs st l) {j : Nat} {op : Active} (hop : (st.procs j).active = some op) {a : Entry}
    (ha : a.id = op.num) (k : Nat) (op' : Active) (hk : k ≠ j) (hop' : (st.procs k).active = some op') :
    op'.num ≠ op.num ∧ Noted (l ++ [a]) op' := by
  have hne : op'.num ≠ op.num := fun hnum => hk (h.apart hop' hop hnum)
  exact ⟨hne, (h.noted k op' hop').append fun h => hne (h.symm.trans ha)⟩

theorem Logs.below_append (h : Logs st l) {a : Entry} {count : Nat} (hcount : st.count ≤ count)
    (ha : a.id < count) : ∀ e ∈ l ++ [a], e.id < count := by
  intro e he
  rcases List.mem_append.mp he with he | he
  · exact Nat.lt_of_lt_of_le (h.below e he) hcount
  · exact List.mem_singleton.mp he ▸ ha

/-! ## Runs

The invariant carries three things through a run: the namespace that the servers hold, which is
the one the points of the log lead to; for each operation under way, how far it has come on a
path that is still there; and the well-formedness of the log. The moment an operation settles is
the step that determines its result, and one step settles at most one. -/

/-- What a run of the clients has come to: `v` is what the namespace is after the
points of the log. -/
structure Explained {cl : Cluster} (a : Access cl) (v₀ : View) (l : List Entry) (st : State) (v : View) :
    Prop where
  refines : Refines a st v
  logs : Logs st l
  legal : (namespaceSpec a).run v₀ ((points l).map Prod.snd) = some v

variable {v₀ : View} {k : Label} {st' : State} {es : List Entry}

/-- Entries that are no points. -/
theorem legal_append {spec : Spec View (Task × Result)}
    (h : spec.run v₀ ((points l).map Prod.snd) = some v) (hes : points es = []) :
    spec.run v₀ ((points (l ++ es)).map Prod.snd) = some v := by
  rw [points_append, hes, List.append_nil]
  exact h

/-- **One step.** The step is one of the servers and the clients, one of the log, and one
of the namespace if it settles an operation. -/
theorem Explained.step (h : Explained a v₀ l st v) (hset : cl.SetUp) (lru : Nat) (hwithin : Within a st k)
    (hstep : st.step a lru k = some (st', es)) : ∃ v', Explained a v₀ (l ++ es) st' v' := by
  obtain ⟨href, hlogs, hlegal⟩ := h
  obtain ⟨hroom, hfits⟩ := hwithin
  cases k with
  -- a call begins: nothing has happened in the tree yet
  | call task =>
    rw [State.step] at hstep
    cases hidle : (st.procs task.client).active with
    | some op => rw [hidle] at hstep; cases hstep
    | none =>
      rw [hidle] at hstep
      obtain ⟨rfl, rfl⟩ := Prod.mk.inj (Option.some.inj hstep)
      obtain ⟨honce, hpend⟩ := hlogs.once.inv (fun e he => Nat.ne_of_lt (hlogs.below e he)) task
      refine ⟨v, href.call hidle hfits, ?_, ?_⟩
      · refine hlogs.set honce (hlogs.below_append (Nat.le_succ _) (Nat.lt_succ_self _)) st.count
          (fun op hop => ?_) fun k op _ hop => ?_
        · obtain rfl := Option.some.inj hop
          exact ⟨rfl, hpend⟩
        · have hne := Nat.ne_of_lt (hlogs.num_lt hop)
          exact ⟨hne, (hlogs.noted k op hop).append hne.symm⟩
      · exact legal_append hlegal rfl
  -- one section of a process; the tree moves only when the operation ends, and then
  -- by the step its result names
  | go j ts junk =>
    rw [State.step] at hstep
    cases hop : (st.procs j).active with
    | none => rw [hop] at hstep; cases hstep
    | some op =>
      rw [hop] at hstep
      cases hno : op.reply? with
      | some r => simp only [hno, reduceCtorEq] at hstep
      | none =>
        simp only [hno] at hstep
        obtain ⟨d', v', hcontent, href', hnum, htask, hcase⟩ := href.go hset lru hroom hop hno ts junk rfl
        rw [hcontent, Option.map_some] at hstep
        obtain ⟨rfl, rfl⟩ := Prod.mk.inj (Option.some.inj hstep)
        generalize op.next a lru ts junk { (st.procs j).client with content := some st.contents } = x at *
        have hpend := hlogs.noted j op hop
        rw [Noted, hno] at hpend
        rcases hcase with ⟨hno', rfl⟩ | ⟨r, hr, hv⟩
        · rw [hno', Option.toList_none, List.map_nil, List.append_nil]
          refine ⟨v', href', ?_, hlegal⟩
          refine hlogs.set hlogs.once hlogs.below op.num (fun op' hop' => ?_) fun k op' hk hop' =>
            ⟨fun h => hk (hlogs.apart hop' hop h), hlogs.noted k op' hop'⟩
          obtain rfl := Option.some.inj hop'
          rw [Noted, hnum, htask, hno']
          exact ⟨rfl, hpend⟩
        · rw [hr, Option.toList_some, List.map_singleton]
          obtain ⟨honce, hpend'⟩ := hlogs.once.pt hpend (r.map Reply.seen)
          refine ⟨v', href', ?_, ?_⟩
          · refine hlogs.set honce (hlogs.below_append (Nat.le_refl _) (hlogs.num_lt hop)) op.num
              (fun op' hop' => ?_) (hlogs.others hop rfl)
            obtain rfl := Option.some.inj hop'
            rw [Noted, hnum, htask, hr]
            exact ⟨rfl, hpend'⟩
          · rw [points_append, List.map_append, Spec.run_append, hlegal, Option.bind_some]
            show ((namespaceSpec a).step v (op.task, r.map Reply.seen)).bind some = some v'
            rw [Spec.ofStep_step hv]
            rfl
  -- the answer was fixed by the last section: the process only takes it
  | ret j =>
    rw [State.step] at hstep
    cases hop : (st.procs j).active with
    | none => rw [hop] at hstep; cases hstep
    | some op =>
      rw [hop] at hstep
      cases hr : op.reply? with
      | none => simp only [hr, reduceCtorEq] at hstep
      | some r =>
        simp only [hr] at hstep
        obtain ⟨rfl, rfl⟩ := Prod.mk.inj (Option.some.inj hstep)
        have hpend := hlogs.noted j op hop
        rw [Noted, hr] at hpend
        refine ⟨v, href.ret hop hr, ?_, ?_⟩
        · exact hlogs.set (hlogs.once.ret hpend) (hlogs.below_append (Nat.le_refl _) (hlogs.num_lt hop)) op.num
            (fun op' hop' => by cases hop') (hlogs.others hop rfl)
        · exact legal_append hlegal rfl

theorem Explained.start (lru : Nat) (hd : cl.Sound d) (clocks : Nat → Nat → UInt64) :
    Explained a ⟨cl.tree d, fun _ => []⟩ [] (.start cl lru d clocks) ⟨cl.tree d, fun _ => []⟩ where
  refines := ⟨hd, fun _ => Client.Inv.start _ _, fun _ => .nil, fun _ _ hop => (by cases hop), rfl⟩
  logs := .start cl lru d clocks
  legal := rfl

/-- **A run.** At its start nothing has been logged, the tree is that of the contents,
and no client has a lease. -/
theorem Explained.run (lru : Nat) (clocks : Nat → Nat → UInt64) (hset : cl.SetUp) (hd : cl.Sound d)
    (hrun : (system a lru d clocks).Run (Within a) l st) :
    ∃ v, Explained a ⟨cl.tree d, fun _ => []⟩ l st v := by
  refine hrun.invariant (I := fun l st => ∃ v, Explained a ⟨cl.tree d, fun _ => []⟩ l st v)
    (fun st hst => ⟨_, hst ▸ Explained.start lru hd clocks⟩) ?_
  intro l st k st' es _ hI hwithin hstep
  obtain ⟨v, h⟩ := hI
  exact h.step hset lru hwithin hstep

end Steps

/-- What an entry says is returned. -/
def returned : Entry → Option (Nat × Result)
  | .ret i r => some (i, r)
  | _ => none

end Clients

end Site

end DeltaFs
