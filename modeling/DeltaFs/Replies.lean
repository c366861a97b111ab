import DeltaFs.Remote

/-!
# Replies from anywhere

What the six clients make of a reply, whatever its bytes. The decoders check the
size of a payload before they read it, but a code goes to `FromCode` unchecked,
which asserts that there is such a code.

Each of the six clients reads a head and a payload of a fixed size (`Sized`), so one lemma
about a parser with these two parts (`parseReply_answered`) serves them all.
-/

namespace DeltaFs

namespace Rpc

/-- What the client of a request makes of a reply to it. -/
def clientReply (req : Request) (ret : Output) (out : Slice) : Read Output :=
  match req with
  | .lokup _ => parseReply getLookupStat ret.look out >>= fun (s, look) =>
      .ok { ret with status := s, look := look }
  | .mkfls _ _ _ => parseReply getFixed32 ret.n out >>= fun (s, n) =>
      .ok { ret with status := s, n := n }
  | .bukin _ => parseReply getNothing () out >>= fun (s, _) => .ok { ret with status := s }
  | _ => parseReply (getStat ret.stat) ret.stat out >>= fun (s, stat) =>
      .ok { ret with status := s, stat := stat }

/-- A client whose request has been sent returns what it makes of the reply. -/
theorem client_reply {m : Type → Type} [Monad m] [LawfulMonad m] {c : Call} (hfits : Fits c)
    (ret : Output) (out : Slice) :
    client (m := m) (fun _ => pure (.ok (.ok, out))) c ret = pure (clientReply c.req ret out) := by
  obtain ⟨who, parent, req⟩ := c
  have hfinish : ∀ {α : Type} (request : Slice) (get : Slice → Read (α × Slice)) (a : α),
      finishCall (m := m) (fun _ => pure (.ok (.ok, out))) request get a =
        pure (parseReply get a out) := by
    intro α request get a
    rw [finishCall, pure_bind]
    rfl
  cases req with
  | mkfls namearr mode n =>
    simp only [client, mkflsCli, hfinish, pure_bind]
    rfl
  | lokup name =>
    have hlen : (lokupRequest parent name who).length ≤ bufSize := hfits rfl
    simp only [client, lokupCli, checkedCall, if_pos hlen, hfinish, pure_bind]
    rfl
  | mkdir name mode =>
    have hlen : (mkdirRequest parent name mode who).length ≤ bufSize := hfits rfl
    simp only [client, mkdirCli, checkedCall, if_pos hlen, hfinish, pure_bind]
    rfl
  | mkfle name mode =>
    have hlen : (mkfleRequest parent name mode who).length ≤ bufSize := hfits rfl
    simp only [client, mkfleCli, checkedCall, if_pos hlen, hfinish, pure_bind]
    rfl
  | bukin dir =>
    have hlen : (bukinRequest parent dir who).length ≤ bufSize := hfits rfl
    simp only [client, bukinCli, checkedCall, if_pos hlen, hfinish, pure_bind]
    rfl
  | lstat name =>
    have hlen : (lstatRequest parent name who).length ≤ bufSize := hfits rfl
    simp only [client, lstatCli, checkedCall, if_pos hlen, hfinish, pure_bind]
    rfl

/-! ## Payloads

Each decoder needs a fixed number of bytes and looks at no others. The clients check the size
before they decode, so a reply that is too short leaves the caller's result alone. -/

/-- A decoder that needs `k` bytes, and no more. -/
def Sized {α : Type} (k : Nat) (get : Slice → Read (α × Slice)) : Prop :=
  ∀ input, if input.length < k then get input = .bad else ∃ r, get input = .ok r

theorem sized_getFixed32 : Sized 4 getFixed32 := by
  intro input
  split
  · rename_i h
    exact if_pos h
  · rename_i h
    rw [getFixed32, if_neg h, word32_of_le (by omega)]
    exact ⟨_, rfl⟩

theorem sized_getNothing : Sized 0 getNothing := by
  intro input
  rw [if_neg (Nat.not_lt_zero _)]
  exact ⟨_, rfl⟩

theorem sized_getLookupStat : Sized 40 getLookupStat := by
  intro input
  split
  · rename_i h
    exact if_pos h
  · rename_i h
    have h32 : ∀ k ≤ 36, ∃ v, word32 (input.drop k) = .ok v := fun k hk =>
      ⟨_, word32_of_le (by rw [List.length_drop]; omega)⟩
    have h64 : ∀ k ≤ 32, ∃ v, word64 (input.drop k) = .ok v := fun k hk =>
      ⟨_, word64_of_le (by rw [List.length_drop]; omega)⟩
    obtain ⟨dno, hdno⟩ := h64 0 (by decide)
    obtain ⟨ino, hino⟩ := h64 8 (by decide)
    obtain ⟨due, hdue⟩ := h64 16 (by decide)
    obtain ⟨srv, hsrv⟩ := h32 24 (by decide)
    obtain ⟨mode, hmode⟩ := h32 28 (by decide)
    obtain ⟨uid, huid⟩ := h32 32 (by decide)
    obtain ⟨gid, hgid⟩ := h32 36 (by decide)
    rw [List.drop_zero] at hdno
    rw [getLookupStat, if_neg h, hdno, hino, hdue, hsrv, hmode, huid, hgid]
    exact ⟨_, rfl⟩

theorem sized_getStat (stat : Stat) : Sized 28 (getStat stat) := by
  intro input
  split
  · rename_i h
    exact if_pos h
  · rename_i h
    have h32 : ∀ k ≤ 24, ∃ v, word32 (input.drop k) = .ok v := fun k hk =>
      ⟨_, word32_of_le (by rw [List.length_drop]; omega)⟩
    have h64 : ∀ k ≤ 20, ∃ v, word64 (input.drop k) = .ok v := fun k hk =>
      ⟨_, word64_of_le (by rw [List.length_drop]; omega)⟩
    obtain ⟨dno, hdno⟩ := h64 0 (by decide)
    obtain ⟨ino, hino⟩ := h64 8 (by decide)
    obtain ⟨mode, hmode⟩ := h32 16 (by decide)
    obtain ⟨uid, huid⟩ := h32 20 (by decide)
    obtain ⟨gid, hgid⟩ := h32 24 (by decide)
    rw [List.drop_zero] at hdno
    rw [getStat, if_neg h, hdno, hino, hmode, huid, hgid]
    exact ⟨_, rfl⟩

/-- The size of the payload of a reply. -/
def payloadSize : Request → Nat
  | .lokup _ => 40
  | .mkfls _ _ _ => 4
  | .bukin _ => 0
  | _ => 28

/-! ## Codes

A reply starts with a code. Zero is success, with the payload after it; other codes are errors,
made by `FromCode`, which asserts that the code is one it knows. A peer may send any code, so
this assertion is the one thing that can go wrong. -/

/-- The code of a reply. -/
def replyCode (out : Slice) : UInt32 := decodeFixed32 (out.take 4)

/-- The error a reply stands for: that of its code, or a corruption when the
reply is too short or there is no such code. -/
def replyError (req : Request) (out : Slice) : Option ErrCode :=
  if out.length < 4 then some .corruption
  else if replyCode out = 0 then
    if out.length < 4 + payloadSize req then some .corruption else none
  else some ((ErrCode.ofCode (replyCode out).toNat).getD .corruption)


/-- The error of a status. -/
def statusError : Status → Option ErrCode
  | .ok => none
  | .err c _ => some c

/-- **What a client should return**: a status with the error the reply stands
for, and on an error the caller's result as it was. -/
def Answered (req : Request) (ret : Output) (out : Slice) (r : Read Output) : Prop :=
  ∃ o, r = .ok o ∧ statusError o.status = replyError req out ∧
    (o.status ≠ .ok → o = { ret with status := o.status })

/-- There is no code, or one `FromCode` knows. -/
def KnownCode (out : Slice) : Prop := 4 ≤ out.length → (replyCode out).toNat ≤ 24

theorem ofCode_isSome {n : Nat} : (ErrCode.ofCode n).isSome = true ↔ 0 < n ∧ n ≤ 24 := by
  constructor
  · intro h
    by_contra hne
    have hnone : ErrCode.ofCode n = none := by
      rw [ErrCode.ofCode]
      all_goals
        rintro rfl
        exact hne (by decide)
    rw [hnone] at h
    cases h
  · rintro ⟨hpos, hle⟩
    interval_cases n <;> rfl

/-- What the clients share. -/
theorem parseReply_answered {α : Type} {k : Nat} {get : Slice → Read (α × Slice)}
    (hget : Sized k get) (a : α) (out : Slice) :
    (KnownCode out → ∃ s b, parseReply get a out = .ok (s, b) ∧ (s ≠ .ok → b = a) ∧
      statusError s = if out.length < 4 then some .corruption
        else if replyCode out = 0 then if out.length < 4 + k then some .corruption else none
        else some ((ErrCode.ofCode (replyCode out).toNat).getD .corruption)) ∧
    (¬KnownCode out → parseReply get a out = .fault) := by
  by_cases hlen : out.length < 4
  · have hbad : getFixed32 out = .bad := if_pos hlen
    refine ⟨fun _ => ⟨.err .corruption (str "Bad rpc reply header"), a, ?_, fun _ => rfl, ?_⟩,
      fun hno => ?_⟩
    · rw [parseReply, hbad]
    · rw [if_pos hlen]
      rfl
    · exact absurd (fun h => absurd h (by omega)) hno
  have hhead : getFixed32 out = .ok (replyCode out, out.drop 4) := by
    rw [getFixed32, if_neg hlen, word32_of_le (by omega)]
    rfl
  rw [if_neg hlen]
  by_cases hzero : replyCode out = 0
  · have hknown : KnownCode out := fun _ => by rw [hzero]; decide
    refine ⟨fun _ => ?_, fun hno => absurd hknown hno⟩
    have hpay := hget (out.drop 4)
    rw [List.length_drop] at hpay
    rw [if_pos hzero, parseReply, hhead]
    simp only [hzero, ne_eq, not_true_eq_false, if_false]
    by_cases hk : out.length < 4 + k
    · rw [if_pos (by omega)] at hpay
      rw [hpay, if_pos hk]
      exact ⟨_, a, rfl, fun _ => rfl, rfl⟩
    · rw [if_neg (by omega)] at hpay
      obtain ⟨r, hr⟩ := hpay
      rw [hr, if_neg hk]
      exact ⟨.ok, r.1, rfl, fun h => absurd rfl h, rfl⟩
  · rw [if_neg hzero, parseReply, hhead]
    simp only [ne_eq, hzero, not_false_eq_true, if_true, Status.fromCode]
    have hpos : 0 < (replyCode out).toNat :=
      Nat.pos_of_ne_zero fun h => hzero (UInt32.toNat_inj.mp h)
    cases hcode : ErrCode.ofCode (replyCode out).toNat with
    | none =>
      refine ⟨fun hknown => ?_, fun _ => rfl⟩
      have hsome := ofCode_isSome.mpr ⟨hpos, hknown (by omega)⟩
      rw [hcode] at hsome
      cases hsome
    | some c =>
      refine ⟨fun _ => ⟨.err c [], a, rfl, fun _ => rfl, rfl⟩, fun hno => ?_⟩
      have hle := (ofCode_isSome.mp (by rw [hcode]; rfl)).2
      exact absurd (fun _ => hle) hno

/-- A client that writes what it has read to its own output parameter. -/
theorem answered_iff {α : Type} {ret : Output} (req : Request) {get : Slice → Read (α × Slice)}
    (hget : Sized (payloadSize req) get) (a : α) (f : Status → α → Output)
    (hstatus : ∀ s b, (f s b).status = s) (hsame : ∀ s, f s a = { ret with status := s })
    (out : Slice) :
    Answered req ret out (parseReply get a out >>= fun p => .ok (f p.1 p.2)) ↔ KnownCode out := by
  obtain ⟨hknown, hfault⟩ := parseReply_answered hget a out
  constructor
  · rintro ⟨o, ho, -⟩
    by_contra hno
    rw [hfault hno] at ho
    cases ho
  · intro h
    obtain ⟨s, b, hr, hb, hs⟩ := hknown h
    refine ⟨f s b, by rw [hr]; rfl, ?_, fun hne => ?_⟩
    · rw [hstatus, hs, replyError]
    · rw [hstatus] at hne ⊢
      rw [hb hne, hsame]

/-- **Replies are parsed** to a status, without a fault, exactly when their code
is one `FromCode` knows.

Every length is checked before it is used, so the payload of a reply can do no harm,
whatever it is (`parseReply_answered`). The code of a reply that is not OK goes to `FromCode`,
which asserts that there is a status with it. -/
theorem replies_answered (req : Request) (ret : Output) (out : Slice) :
    Answered req ret out (clientReply req ret out) ↔ KnownCode out := by
  cases req with
  | lokup name =>
    exact answered_iff (.lokup name) sized_getLookupStat ret.look
      (fun s look => { ret with status := s, look := look }) (fun _ _ => rfl) (fun _ => rfl) out
  | mkfls namearr mode n =>
    exact answered_iff (.mkfls namearr mode n) sized_getFixed32 ret.n
      (fun s n => { ret with status := s, n := n }) (fun _ _ => rfl) (fun _ => rfl) out
  | bukin dir =>
    exact answered_iff (.bukin dir) sized_getNothing ()
      (fun s _ => { ret with status := s }) (fun _ _ => rfl) (fun _ => rfl) out
  | mkdir name mode =>
    exact answered_iff (.mkdir name mode) (sized_getStat ret.stat) ret.stat
      (fun s stat => { ret with status := s, stat := stat }) (fun _ _ => rfl) (fun _ => rfl) out
  | mkfle name mode =>
    exact answered_iff (.mkfle name mode) (sized_getStat ret.stat) ret.stat
      (fun s stat => { ret with status := s, stat := stat }) (fun _ _ => rfl) (fun _ => rfl) out
  | lstat name =>
    exact answered_iff (.lstat name) (sized_getStat ret.stat) ret.stat
      (fun s stat => { ret with status := s, stat := stat }) (fun _ _ => rfl) (fun _ => rfl) out

/-- The code 100 is none. -/
theorem replies_unknown :
    clientReply (.lokup (str "a")) noOutput [100, 0, 0, 0] = .fault ∧
      ¬Answered (.lokup (str "a")) noOutput [100, 0, 0, 0]
        (clientReply (.lokup (str "a")) noOutput [100, 0, 0, 0]) := by
  refine ⟨rfl, ?_⟩
  rintro ⟨o, ho, -⟩
  cases ho

end Rpc

end DeltaFs
