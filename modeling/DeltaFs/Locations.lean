import DeltaFs.Bulk

/-!
# Where bulk dbs are

`CreateBulkContext` gives the db of each server a path that is made of a number of
the context, the directory and the server, in decimal and with dashes between them.
The text tells these apart, but it is formatted into a buffer of 50 bytes.

`Place.alone_iff` says for which places that is enough: for those whose text fits, and
those whose text is one byte too long for another digit of the server to be seen.

A number in decimal has no dash in it, so the text of a place can be read back field by
field (`text_inj`), and if one text starts with another, they differ in the last number
alone (`text_extend`). Truncation is dangerous only there.
-/

namespace DeltaFs

namespace Bulk

/-! ## Numbers in decimal

Two facts about numbers as `printf` writes them are used below. What is written determines the
number. And if one number is a proper beginning of another, the other is at least ten times as
large, which limits what can happen when a text is cut. -/

/-- A digit. -/
def digit (d : Nat) : UInt8 := UInt8.ofNat (48 + d)

/-- The number that is written. -/
def valueOf (l : Slice) : Nat := l.foldl (fun n c => 10 * n + (c.toNat - 48)) 0

theorem toNat_digit {d : Nat} (hd : d < 10) : (digit d).toNat = 48 + d := by
  rw [digit, UInt8.toNat_ofNat', Nat.mod_eq_of_lt (by omega)]

/-- Before the last digit there is a tenth of the number, if that is not zero. -/
theorem decimal_snoc (n : Nat) :
    decimal n = (if n < 10 then [] else decimal (n / 10)) ++ [digit (n % 10)] := by
  have hchar : ∀ d < 10, UInt8.ofNat (Nat.digitChar d).toNat = digit d := by decide
  unfold decimal
  rw [Nat.toDigits_eq_if (by decide)]
  split
  · rename_i hlt
    simp only [List.map_cons, List.map_nil, List.nil_append, hchar n hlt, Nat.mod_eq_of_lt hlt]
  · simp only [List.map_append, List.map_cons, List.map_nil,
      hchar (n % 10) (Nat.mod_lt _ (by decide))]

theorem decimal_of_lt {n : Nat} (h : n < 10) : decimal n = [digit n] := by
  rw [decimal_snoc, if_pos h, List.nil_append, Nat.mod_eq_of_lt h]

theorem decimal_of_le {n : Nat} (h : 10 ≤ n) : decimal n = decimal (n / 10) ++ [digit (n % 10)] := by
  rw [decimal_snoc, if_neg (by omega)]

/-- Only the last digit depends on the last digit. -/
theorem decimal_last (q : Nat) : ∃ l, ∀ d < 10, decimal (10 * q + d) = l ++ [digit d] := by
  refine ⟨if q = 0 then [] else decimal q, fun d hd => ?_⟩
  rw [decimal_snoc, show (10 * q + d) % 10 = d by omega, show (10 * q + d) / 10 = q by omega]
  congr 1
  by_cases hq : q = 0
  · rw [if_pos (by omega), if_pos hq]
  · rw [if_neg (by omega), if_neg hq]

theorem valueOf_append (l m : Slice) :
    valueOf (l ++ m) = m.foldl (fun n c => 10 * n + (c.toNat - 48)) (valueOf l) := by
  rw [valueOf, List.foldl_append, ← valueOf]

/-- **What is written is read.** By strong induction on the number, since the digits are
written from the last one up. -/
@[simp] theorem valueOf_decimal (n : Nat) : valueOf (decimal n) = n := by
  induction n using Nat.strongRecOn with
  | ind n ih =>
    by_cases hlt : n < 10
    · rw [decimal_of_lt hlt]
      simp only [valueOf, List.foldl_cons, List.foldl_nil, toNat_digit hlt]
      omega
    · rw [decimal_of_le (by omega), valueOf_append, ih (n / 10) (by omega)]
      simp only [List.foldl_cons, List.foldl_nil, toNat_digit (Nat.mod_lt n (by decide : 0 < 10))]
      omega

theorem decimal_inj {n m : Nat} (h : decimal n = decimal m) : n = m := by
  rw [← valueOf_decimal n, h, valueOf_decimal]

/-- A number with more digits is ten times as large. -/
theorem le_valueOf (l : Slice) (n : Nat) :
    n ≤ l.foldl (fun n c => 10 * n + (c.toNat - 48)) n := by
  induction l generalizing n with
  | nil => exact Nat.le_refl n
  | cons c l ih =>
    have hstep := ih (10 * n + (c.toNat - 48))
    rw [List.foldl_cons]
    omega

/-- The first digit is a digit, and not zero unless it is the number. -/
theorem decimal_head (n : Nat) : ∃ d l, d < 10 ∧ decimal n = digit d :: l ∧ (d = 0 → n = 0) := by
  induction n using Nat.strongRecOn with
  | ind n ih =>
    by_cases hlt : n < 10
    · exact ⟨n, [], hlt, decimal_of_lt hlt, fun h => h⟩
    · obtain ⟨d, l, hd, hl, hzero⟩ := ih (n / 10) (by omega)
      refine ⟨d, l ++ [digit (n % 10)], hd, ?_, fun h => ?_⟩
      · rw [decimal_of_le (by omega), hl, List.cons_append]
      · have := hzero h
        omega

/-- **No number starts with another**, unless it is ten times as large, or larger. A
number has no leading zeroes, so zero is the beginning of no other; and a digit more is
a factor of ten. -/
theorem decimal_extend {n m : Nat} {x : Slice} (hx : x ≠ []) (h : decimal m = decimal n ++ x) :
    n ≠ 0 ∧ 10 * n ≤ m := by
  obtain ⟨c, x, rfl⟩ := List.exists_cons_of_ne_nil hx
  constructor
  · rintro rfl
    obtain ⟨d, l, hd, hl, hzero⟩ := decimal_head m
    rw [hl, decimal_of_lt (by decide : 0 < 10), List.singleton_append, List.cons.injEq] at h
    have hdigit := congrArg UInt8.toNat h.1
    rw [toNat_digit hd, toNat_digit (by decide)] at hdigit
    have hm := hzero (by omega)
    rw [hm, decimal_of_lt (by decide), List.cons.injEq] at hl
    rw [← hl.2] at h
    cases h.2
  · have hvalue := congrArg valueOf h
    rw [valueOf_decimal, valueOf_append, valueOf_decimal, List.foldl_cons] at hvalue
    have := le_valueOf x (10 * n + (c.toNat - 48))
    omega

/-! ## Fields between dashes

The fields of a path are written one after the other with dashes between them. No number
contains a dash, but a negative number starts with one, so a field is read up to the first dash
after its sign. -/

/-- `-`. -/
def dash : UInt8 := 45

theorem dash_notMem_decimal (n : Nat) : dash ∉ decimal n := by
  induction n using Nat.strongRecOn with
  | ind n ih =>
    have hdash : ∀ d < 10, dash ≠ digit d := by decide
    by_cases hlt : n < 10
    · rw [decimal_of_lt hlt, List.mem_singleton]
      exact hdash n hlt
    · rw [decimal_of_le (by omega), List.mem_append, List.mem_singleton, not_or]
      exact ⟨ih (n / 10) (by omega), hdash _ (Nat.mod_lt _ (by decide))⟩

/-- A field ends at the first dash. -/
theorem field_inj : ∀ {a b r s : Slice}, dash ∉ a → dash ∉ b → a ++ dash :: r = b ++ dash :: s →
    a = b ∧ r = s
  | [], [], _, _, _, _, h => ⟨rfl, (List.cons.inj h).2⟩
  | [], c :: b, _, _, _, hb, h => absurd (List.mem_cons.2 (.inl (List.cons.inj h).1)) hb
  | c :: a, [], _, _, ha, _, h => absurd (List.mem_cons.2 (.inl (List.cons.inj h).1.symm)) ha
  | c :: a, d :: b, r, s, ha, hb, h => by
    rw [List.cons_append, List.cons_append, List.cons.injEq] at h
    rw [List.mem_cons, not_or] at ha hb
    obtain ⟨rfl, rfl⟩ := field_inj ha.2 hb.2 h.2
    exact ⟨by rw [h.1], rfl⟩

/-- So does a field with a sign. -/
theorem signed_inj {n m : Int} {r s : Slice} (h : signed n ++ dash :: r = signed m ++ dash :: s) :
    n = m ∧ r = s := by
  have hdecimal : ∀ {k : Nat} {l t : Slice}, decimal k ++ l ≠ dash :: t := by
    intro k l t hk
    obtain ⟨d, u, hd, hu, -⟩ := decimal_head k
    rw [hu, List.cons_append, List.cons.injEq] at hk
    exact (by decide : ∀ d < 10, digit d ≠ dash) d hd hk.1
  cases n with
  | ofNat n =>
    cases m with
    | ofNat m =>
      obtain ⟨hnm, hrs⟩ := field_inj (dash_notMem_decimal n) (dash_notMem_decimal m) h
      rw [decimal_inj hnm]
      exact ⟨rfl, hrs⟩
    | negSucc m => exact absurd h hdecimal
  | negSucc n =>
    cases m with
    | ofNat m => exact absurd h.symm hdecimal
    | negSucc m =>
      have htail : decimal (n + 1) ++ dash :: r = decimal (m + 1) ++ dash :: s :=
        (List.cons.inj h).2
      obtain ⟨hnm, hrs⟩ := field_inj (dash_notMem_decimal _) (dash_notMem_decimal _) htail
      rw [Nat.succ.inj (decimal_inj hnm)]
      exact ⟨rfl, hrs⟩

/-! ## Places

A place is what the path of a bulk db is meant to tell apart. Its text does so, if there is room
for all of it: the fields can be read back one by one. -/

/-- What the path of a bulk db is made of. -/
structure Place where
  /-- `ctx->bkid` -/
  bkid : Int32
  dir : DirId
  /-- one of `srvs_` servers, an `int` -/
  srv : Nat
  srv_lt : srv < 2 ^ 31

namespace Place

/-- What is there before the number of the server. -/
def front (p : Place) : Slice :=
  str "/b" ++ (signed p.bkid.toInt ++ dash :: (decimal p.dir.dno.toNat ++
    dash :: (decimal p.dir.ino.toNat ++ [dash])))

/-- What would be put into a buffer that is large enough. -/
def text (p : Place) : Slice := p.front ++ decimal p.srv

/-- `dbloc`. -/
def loc (bkrt : Slice) (p : Place) : Slice := bkrt ++ bkidOf p.bkid.toInt p.dir p.srv

theorem loc_eq (bkrt : Slice) (p : Place) : p.loc bkrt = bkrt ++ p.text.take 49 := by
  have hdash : str "-" = [dash] := by decide
  simp only [loc, bkidOf, text, front, hdash, List.append_assoc, List.cons_append, List.nil_append]

/-- It is the path of the server in a context. -/
theorem loc_inserts {c : Inserts} {p : Place} (hbkid : c.bkid = p.bkid.toInt)
    (hdir : c.handle.parent.dirId = p.dir) : c.loc p.srv = p.loc c.bkrt := by
  rw [Inserts.loc, hbkid, hdir, loc]

/-- **A text that starts with another** is of the same context and directory. The
numbers of both are ended by separators, so only the last one, that of the server, can
go on. -/
theorem text_extend {p q : Place} {x : Slice} (h : q.text = p.text ++ x) :
    q.bkid = p.bkid ∧ q.dir = p.dir ∧ decimal q.srv = decimal p.srv ++ x := by
  simp only [text, front, List.append_assoc, List.cons_append, List.nil_append] at h
  obtain ⟨hbkid, h⟩ := signed_inj (List.append_cancel_left h)
  obtain ⟨hdno, h⟩ := field_inj (dash_notMem_decimal _) (dash_notMem_decimal _) h
  obtain ⟨hino, h⟩ := field_inj (dash_notMem_decimal _) (dash_notMem_decimal _) h
  refine ⟨Int32.toInt_inj.1 hbkid, ?_, h⟩
  have hnums : q.dir = ⟨q.dir.dno, q.dir.ino⟩ := rfl
  rw [hnums, UInt64.toNat_inj.1 (decimal_inj hdno), UInt64.toNat_inj.1 (decimal_inj hino)]

theorem eq_of_fields {p q : Place} (hbkid : q.bkid = p.bkid) (hdir : q.dir = p.dir)
    (hsrv : q.srv = p.srv) : q = p := by
  cases p
  cases q
  cases hbkid
  cases hdir
  cases hsrv
  rfl

/-- **The text tells places apart.** A number ends at the first dash, so the fields can be
taken off one by one. -/
theorem text_inj {p q : Place} (h : q.text = p.text) : q = p := by
  obtain ⟨hbkid, hdir, hsrv⟩ := text_extend (h.trans (List.append_nil _).symm)
  rw [List.append_nil] at hsrv
  exact eq_of_fields hbkid hdir (decimal_inj hsrv)

/-- The same place at another server. -/
def atServer (p : Place) (i : Nat) (hi : i < 2 ^ 31) : Place := { p with srv := i, srv_lt := hi }

theorem text_atServer (p : Place) (i : Nat) (hi : i < 2 ^ 31) :
    (p.atServer i hi).text = p.front ++ decimal i := rfl

/-! ## Which paths are shared

`snprintf` into 50 bytes keeps the first 49 bytes of the text. A text that leaves one of them
free is read back in full, and nothing else is cut to it. A text of exactly 49 bytes is cut off
nowhere, but the text of another server may go on with one more digit and be cut to it; this
cannot be when ten times the number is no server number any more. Longer texts lose digits, and
there is always another number with the same beginning. -/

/-- No other place has the path, and a call for the db there leaves the files of
all other places alone. -/
structure Alone (bkrt : Slice) (p : Place) : Prop where
  distinct : ∀ q ≠ p, q.loc bkrt ≠ p.loc bkrt
  spares : ∀ {k : Nat} {name : Slice} {force : Bool} {e : Env} {s s' : Spot} {st : Status}
    {handed : List Handed}, s.2.bkid = p.bkid.toInt → s.2.handle.parent.dirId = p.dir →
      s.2.bkrt = bkrt → bukin1 k name force p.srv e s = some (st, s', handed) →
      ∀ q ≠ p, s'.1 (q.loc bkrt) = s.1 (q.loc bkrt)

/-- The text leaves room for one more byte in the buffer, or fills it and is not the beginning
of the text of another server, since no server number has one digit more. -/
def Fits (p : Place) : Prop :=
  p.text.length ≤ 48 ∨ (p.text.length = 49 ∧ (p.srv = 0 ∨ 2 ^ 31 ≤ 10 * p.srv))

instance (p : Place) : Decidable p.Fits := instDecidableOr

/-- **Another place has the same path** only if it does not fit. A path that fits is all
of its text, and then the other text has it as its beginning. -/
theorem Fits.distinct {p q : Place} (hp : p.Fits) {bkrt : Slice} (h : q.loc bkrt = p.loc bkrt) :
    q = p := by
  rw [loc_eq, loc_eq] at h
  have htake := List.append_cancel_left h
  have hlen : p.text.length ≤ 49 := by
    rcases hp with hp | hp <;> omega
  rw [List.take_of_length_le hlen] at htake
  -- the other text is this one, and perhaps more
  have hext : q.text = p.text ++ q.text.drop 49 := by rw [← htake, List.take_append_drop]
  by_cases hdrop : q.text.drop 49 = []
  · rw [hdrop, List.append_nil] at hext
    exact text_inj hext
  · have hmore := decimal_extend hdrop (text_extend hext).2.2
    have hlt := q.srv_lt
    have hq : 49 ≤ q.text.length := by
      by_contra hq
      exact hdrop (List.drop_of_length_le (by omega))
    have hp49 : p.text.length = 49 := by rw [← htake, List.length_take, Nat.min_eq_left hq]
    rcases hp with hp | ⟨-, hp⟩ <;> omega

/-- **A place that does not fit shares its path** with another server's. What is cut off is
the end of the number of the server, so a server whose number differs from it only there has
the same path. -/
theorem exists_shared {p : Place} (hp : ¬ p.Fits) (bkrt : Slice) :
    ∃ q ≠ p, q.loc bkrt = p.loc bkrt := by
  have hlt := p.srv_lt
  rw [Fits, not_or, not_and_or] at hp
  by_cases hlen : p.text.length = 49
  · -- one more digit is not seen
    have hi : 10 * p.srv < 2 ^ 31 := by omega
    have hpos : 10 ≤ 10 * p.srv := by omega
    refine ⟨p.atServer (10 * p.srv) hi, fun heq => ?_, ?_⟩
    · have hsrv : 10 * p.srv = p.srv := congrArg srv heq
      omega
    · rw [loc_eq, loc_eq, text_atServer, decimal_of_le hpos,
        Nat.mul_div_cancel_left _ (by decide), ← List.append_assoc,
        show p.front ++ decimal p.srv = p.text from rfl, ← hlen, List.take_left, List.take_length]
  · -- the last digit is not seen
    obtain ⟨l, hl⟩ := decimal_last (p.srv / 10)
    let d := if p.srv % 10 = 0 then 1 else 0
    have hd : d < 10 := by
      dsimp only [d]
      split <;> decide
    have hi : 10 * (p.srv / 10) + d < 2 ^ 31 := by
      dsimp only [d]
      split <;> omega
    have hsrv := hl (p.srv % 10) (Nat.mod_lt _ (by decide))
    rw [Nat.div_add_mod] at hsrv
    have htext : p.text = (p.front ++ l) ++ [digit (p.srv % 10)] := by
      rw [text, hsrv, List.append_assoc]
    have hfront : 49 ≤ (p.front ++ l).length := by
      rw [htext, List.length_append, List.length_singleton] at hp hlen
      omega
    refine ⟨p.atServer _ hi, fun heq => ?_, ?_⟩
    · have hne : 10 * (p.srv / 10) + d = p.srv := congrArg srv heq
      dsimp only [d] at hne
      split at hne <;> omega
    · rw [loc_eq, loc_eq, text_atServer, hl d hd, htext, ← List.append_assoc,
        List.take_append_of_le_length hfront, List.take_append_of_le_length hfront]

/-- A call changes nothing but its own path. -/
theorem bukin1_spares {p : Place} {k : Nat} {name : Slice} {force : Bool} {e : Env} {s s' : Spot}
    {st : Status} {handed : List Handed} (hbkid : s.2.bkid = p.bkid.toInt)
    (hdir : s.2.handle.parent.dirId = p.dir)
    (h : bukin1 k name force p.srv e s = some (st, s', handed)) {x : Slice}
    (hx : x ≠ p.loc s.2.bkrt) : s'.1 x = s.1 x := by
  obtain ⟨l, d, rfl⟩ := bukin1_set h
  have hne : x ≠ s.2.loc p.srv := by rwa [loc_inserts hbkid hdir]
  exact Function.update_of_ne hne l s.1

/-- **Bulk dbs have paths of their own exactly if these fit.** `snprintf` cuts what
does not fit, and the number of the server comes last: it is what is lost first. As long as
the path fits, the separators keep the numbers in it apart, and it can be read back. -/
theorem alone_iff (bkrt : Slice) (p : Place) : p.Alone bkrt ↔ p.Fits := by
  constructor
  · intro h
    by_contra hfits
    obtain ⟨q, hq, hloc⟩ := exists_shared hfits bkrt
    exact h.distinct q hq hloc
  · intro hfits
    have hdistinct : ∀ q ≠ p, q.loc bkrt ≠ p.loc bkrt := fun q hq h => hq (hfits.distinct h)
    refine ⟨hdistinct, ?_⟩
    rintro k name force e s s' st handed hbkid hdir rfl h q hq
    exact bukin1_spares hbkid hdir h (hdistinct q hq)

/-- Contexts with one root have distinct paths when those of one of them fit: what
`World.Apart` asks of the paths. -/
theorem distinctPaths {c c' : Inserts} {b b' : Int32} (hrt : c.bkrt = c'.bkrt)
    (hb : c.bkid = b.toInt) (hb' : c'.bkid = b'.toInt) (hsrvs' : c'.handle.srvs ≤ 2 ^ 31)
    (hfits : ∀ i < c.handle.srvs, ∃ hi, Fits ⟨b, c.handle.parent.dirId, i, hi⟩) :
    c.DistinctPaths c' := by
  intro i hi j hj hloc
  obtain ⟨hlt, hfit⟩ := hfits i hi
  let p : Place := ⟨b, c.handle.parent.dirId, i, hlt⟩
  let q : Place := ⟨b', c'.handle.parent.dirId, j, hj.trans_le hsrvs'⟩
  have hp : c.loc i = p.loc c.bkrt := loc_inserts (p := p) hb rfl
  have hq : c'.loc j = q.loc c'.bkrt := loc_inserts (p := q) hb' rfl
  rw [hp, hq, ← hrt] at hloc
  have heq : q = p := hfit.distinct hloc.symm
  have hbkid : b' = b := congrArg bkid heq
  exact ⟨by rw [hb, hb', hbkid], (congrArg dir heq).symm, (congrArg srv heq).symm⟩

theorem zero_lt_int : 0 < 2 ^ 31 := by decide

/-- A directory with large numbers, for the client of rank 1000. -/
def late : Place := ⟨1000, ⟨10000000000000000000, 10000000000000000000⟩, 0, zero_lt_int⟩

theorem late_shared : ¬ ∀ (bkrt : Slice) (p q : Place), q ≠ p → q.loc bkrt ≠ p.loc bkrt := by
  intro h
  exact h (str "/r") late (late.atServer 1 (by decide)) (fun heq => by cases congrArg srv heq)
    (by decide)

end Place

end Bulk

end DeltaFs
