import DeltaFs.Bulk

/-!
# The map of server addresses

The first server gathers the ports and the ip of every rank into one string: the
ports of all ranks, their ips, and how many ranks and ports there are. A client
fetches the string, takes the two counts from its end (`ParseMapData`) and looks
addresses up in it (`CompactUriMapper`).

Both do so with an `int` here and a `size_t` there. An `int` that overflows is
undefined, `none` here, as is what is read outside of the string.

The client trusts the counts at the end of the string as far as its checks go, and these
compare products that may have wrapped. `Sane` is stated with products that do not, and
the maps of the server meet it.
-/

namespace DeltaFs

namespace UriMap

/-! ## Integers and bytes

The counts are 32-bit words that are assigned to an `int`, and positions are computed with `int`
and `size_t` mixed. `int` gives `none` for a result that is out of range, so that an overflow is
visible instead of being wrapped. -/

/-- What an `int` expression is, `none` if it overflows. -/
def int (x : Int) : Option Int := if -2 ^ 31 ≤ x ∧ x < 2 ^ 31 then some x else none

/-- The `int` that a `uint32_t` is assigned to. -/
def intOf (v : UInt32) : Int := if v.toNat < 2 ^ 31 then v.toNat else v.toNat - 2 ^ 32

/-- `n` bytes from position `k` on. -/
def read (s : Slice) (k : Int) (n : Nat) : Option Slice :=
  if 0 ≤ k ∧ k + n ≤ s.length then some ((s.drop k.toNat).take n) else none

/-- Bytes are put where there are some. -/
def write (s : Slice) (k : Int) (bytes : Slice) : Option Slice :=
  if 0 ≤ k ∧ k + bytes.length ≤ s.length then
    some (s.take k.toNat ++ bytes ++ s.drop (k.toNat + bytes.length))
  else none

/-! ## The client

What a client checks of a map is that its size is the one its counts imply, modulo `2 ^ 64`.
Then it trusts the counts, and every lookup computes its position from them. -/

/-- `ParseMapData`: `num_svrs` and `num_ports_per_svr` of a map that is accepted. -/
def parseMapData (svrMap : Slice) : Option (Option (Int × Int)) :=
  if 8 ≤ svrMap.length then
    let numSvrs := intOf (decodeFixed32 (svrMap.drop (svrMap.length - 8) |>.take 4))
    let numPorts := intOf (decodeFixed32 (svrMap.drop (svrMap.length - 4)))
    (int (2 * numPorts)).bind fun x => (int (x + 4)).map fun sizePerRank =>
      -- these are `size_t`
      if (svrMap.length : Int) % 2 ^ 64 = (sizePerRank * numSvrs + 8) % 2 ^ 64 then
        some (numSvrs, numPorts)
      else none
  else some none

/-- `CompactUriMapper`. -/
structure CompactUriMapper where
  svrMap : Slice
  /-- `ip_map_`, as a position in the map -/
  ipMap : Int
  numPorts : Int
  numSvrs : Int

namespace CompactUriMapper

/-- The position that `Slice::operator[]` is for: a negative one is from the end. -/
def position (s : Slice) (n : Int) : Option Int :=
  let n := if n < 0 then n + s.length else n
  if 0 ≤ n ∧ n < s.length then some n else none

/-- The constructor; `port_map_` is at the start of the map. -/
def new (svrMap : Slice) (numSvrs numPorts : Int) : Option CompactUriMapper :=
  (position svrMap 0).bind fun _ =>
    (int (2 * numPorts)).bind fun x => (int (x * numSvrs)).bind fun y =>
      (position svrMap y).map fun ipMap => ⟨svrMap, ipMap, numPorts, numSvrs⟩

/-- Where `port_map_[svr_idx * num_ports_per_svr_ + port_idx]` is. -/
def portPos (c : CompactUriMapper) (svr port : Int) : Option Int :=
  (int (svr * c.numPorts)).bind fun x => (int (x + port)).map fun k => 2 * k

/-- Where `ip_map_[svr_idx]` is. -/
def ipPos (c : CompactUriMapper) (svr : Int) : Int := c.ipMap + 4 * svr

/-- What `inet_ntoa` prints for the four bytes of an address. -/
def inetNtoa (ip : Slice) : Slice := (str ".").intercalate (ip.map fun b => Bulk.decimal b.toNat)

/-- The uri of an address and a port. -/
def uri (udp : Bool) (ip : Slice) (port : Nat) : Slice :=
  (str (if udp then "udp" else "tcp") ++ str "://" ++ inetNtoa ip ++ str ":" ++
    Bulk.decimal port).take 49

/-- `GetUri`. -/
def getUri (c : CompactUriMapper) (udp : Bool) (svr port : Int) : Option Slice :=
  if svr < c.numSvrs ∧ port < c.numPorts then
    (c.portPos svr port).bind fun k => (read c.svrMap k 2).bind fun p =>
      (read c.svrMap (c.ipPos svr) 4).map fun ip => uri udp ip (fixedValue p)
  else none

end CompactUriMapper

open CompactUriMapper (new)

/-! ## The server

The first rank gathers two bytes for each port and four for each ip, rank by rank, and appends
the two counts. The sizes are computed in the order of the source, so that an overflow would
show. -/

/-- What the ranks send to the first one. -/
structure Ranks where
  /-- `FLAGS_comm_size` -/
  commSize : Nat
  /-- `FLAGS_ports_per_rank` -/
  np : Nat
  /-- `myports` of each rank -/
  ports : Nat → Nat → UInt16
  /-- `myip` of each rank -/
  ips : Nat → UInt32
  commSize_lt : commSize < 2 ^ 31
  np_lt : np < 2 ^ 31

namespace Ranks

/-- What is gathered from rank `i` on; `k` ranks are left. -/
def gather (bytes : Nat → Slice) : Nat → Nat → Slice
  | _, 0 => []
  | i, k + 1 => bytes i ++ gather bytes (i + 1) k

/-- `myports`, as it is sent. -/
def portBytes (r : Ranks) (i : Nat) : Slice := gather (fun j => fixedBytes 2 (r.ports i j).toNat) 0 r.np

/-- `myip`, as it is sent. -/
def ipBytes (r : Ranks) (i : Nat) : Slice := fixedBytes 4 (r.ips i).toNat

/-- `svr_map`, of a given size: the footer, and what is gathered. -/
def fill (r : Ranks) (size : Nat) : Option Slice :=
  (int (2 * r.np)).bind fun x => (int (x * r.commSize)).bind fun ipInfo =>
  (write (List.replicate size 0) (size - 8) (encodeFixed32 (UInt32.ofNat r.commSize))).bind fun m =>
  (write m (size - 4) (encodeFixed32 (UInt32.ofNat r.np))).bind fun m =>
  (write m 0 (gather r.portBytes 0 r.commSize)).bind fun m =>
    write m ipInfo (gather r.ipBytes 0 r.commSize)

/-- `svr_map`. -/
def svrMap (r : Ranks) : Option Slice :=
  (int (2 * r.np)).bind fun x => (int (x + 4)).bind fun sizePerRank =>
    r.fill ((sizePerRank * r.commSize + 8) % 2 ^ 64).toNat

end Ranks

/-! ## What is read

For which accepted maps the lookups stay in bounds: those whose counts are not negative, with as
many ports in total as fit an `int`. The two directions are separate lemmas. If the counts are
sane, all positions can be computed, and are inside; and if all positions are inside, the counts
are sane. -/

/-- The counts of a map are counts, and what is read for each port is inside of it
and before its last eight bytes. -/
structure InBounds (svrMap : Slice) (numSvrs numPorts : Int) : Prop where
  svrs : 0 ≤ numSvrs
  ports : 0 ≤ numPorts
  reads : ∀ i j, 0 ≤ i → i < numSvrs → 0 ≤ j → j < numPorts →
    ∃ c k, new svrMap numSvrs numPorts = some c ∧ c.portPos i j = some k ∧
      0 ≤ k ∧ k + 2 ≤ svrMap.length - 8 ∧ 0 ≤ c.ipPos i ∧ c.ipPos i + 4 ≤ svrMap.length - 8

/-- The counts are not negative, and the ports of all servers fit into an `int`. -/
def Sane (numSvrs numPorts : Int) : Prop :=
  0 ≤ numSvrs ∧ 0 ≤ numPorts ∧
    (numSvrs = 0 ∨ numPorts = 0 ∨ 2 * numPorts * numSvrs < 2 ^ 31)

section

variable {m : Slice} {n p : Int}

theorem int_eq_some {x y : Int} : int x = some y ↔ y = x ∧ -2 ^ 31 ≤ x ∧ x < 2 ^ 31 := by
  rw [int]
  split
  · rename_i h
    rw [Option.some.injEq, eq_comm, and_iff_left h]
  · rename_i h
    exact iff_of_false (fun hs => by cases hs) fun hs => h hs.2

theorem int_of_mem {x : Int} (h : -2 ^ 31 ≤ x ∧ x < 2 ^ 31) : int x = some x := if_pos h

theorem intOf_mem (v : UInt32) : -2 ^ 31 ≤ intOf v ∧ intOf v < 2 ^ 31 := by
  have := v.toNat_lt
  unfold intOf
  split <;> omega

/-- What an accepted map is like. -/
theorem parse_spec (h : parseMapData m = some (some (n, p))) :
    8 ≤ m.length ∧ n < 2 ^ 31 ∧ p < 2 ^ 31 ∧ 2 * p + 4 < 2 ^ 31 ∧
      (m.length : Int) % 2 ^ 64 = ((2 * p + 4) * n + 8) % 2 ^ 64 := by
  rw [parseMapData] at h
  split at h
  · rename_i hlen
    simp only [Option.bind_eq_some_iff, Option.map_eq_some_iff, int_eq_some] at h
    obtain ⟨x, ⟨rfl, -⟩, y, ⟨rfl, -, hlt⟩, h⟩ := h
    split at h
    · rename_i hsize
      cases h
      exact ⟨hlen, (intOf_mem _).2, (intOf_mem _).2, hlt, hsize⟩
    · cases h
  · cases h

/-- **A map with sane counts is as long as they say.** The check compares lengths in the
widths of the code, and for counts that are not negative nothing is lost in them. -/
theorem size_of_parse (h : parseMapData m = some (some (n, p))) (hn : 0 ≤ n) (hp : 0 ≤ p) :
    2 * p * n + 4 * n + 8 ≤ m.length := by
  obtain ⟨-, hn', -, hp', hsize⟩ := parse_spec h
  have hprod : (2 * p + 4) * n ≤ 2 ^ 31 * 2 ^ 31 :=
    Int.mul_le_mul (by omega) (by omega) hn (by decide)
  have hpos : 0 ≤ (2 * p + 4) * n := Int.mul_nonneg (by omega) hn
  have hring : 2 * p * n + 4 * n = (2 * p + 4) * n := by ring
  rw [hring]
  generalize (2 * p + 4) * n = size at hsize hprod hpos
  omega

/-- What the constructor computes when nothing overflows. -/
theorem new_eq (hp : 0 ≤ p) (hn : 0 ≤ n) (hlt : 2 * p * n < 2 ^ 31) (hpos : 0 < n)
    (hlen : 2 * p * n + 4 * n + 8 ≤ m.length) : new m n p = some ⟨m, 2 * p * n, p, n⟩ := by
  have hprod : 0 ≤ 2 * p * n := Int.mul_nonneg (by omega) hn
  have hle : 2 * p * 1 ≤ 2 * p * n := Int.mul_le_mul_of_nonneg_left (by omega) (by omega)
  have hposition : ∀ k : Int, 0 ≤ k → k < m.length → CompactUriMapper.position m k = some k := by
    intro k hk hkm
    simp only [CompactUriMapper.position, if_neg (Int.not_lt.2 hk), hk, hkm, and_self, if_true]
  rw [new, hposition 0 (by omega) (by omega), Option.bind_some, int_of_mem (by omega),
    Option.bind_some, int_of_mem ⟨by omega, hlt⟩, Option.bind_some,
    hposition _ hprod (by omega), Option.map_some]

/-- The index of a port is that of one of all ports. -/
theorem index_lt {i j : Int} (hi : i < n) (hj : j < p) (hp : 0 ≤ p) : i * p + j < p * n := by
  have hle : (i + 1) * p ≤ n * p := Int.mul_le_mul_of_nonneg_right (by omega) hp
  rw [Int.add_mul, Int.one_mul] at hle
  rw [Int.mul_comm p n]
  omega

theorem portPos_eq {c : CompactUriMapper} {i j : Int} (hi : 0 ≤ i) (hin : i < n) (hj : 0 ≤ j)
    (hjp : j < c.numPorts) (hlt : 2 * c.numPorts * n < 2 ^ 31) :
    c.portPos i j = some (2 * (i * c.numPorts + j)) := by
  have hidx := index_lt hin hjp (by omega)
  have hpos : 0 ≤ i * c.numPorts := Int.mul_nonneg hi (by omega)
  rw [Int.mul_assoc] at hlt
  rw [CompactUriMapper.portPos, int_of_mem (by omega), Option.bind_some, int_of_mem (by omega),
    Option.map_some]

/-- What is printed is what is read. -/
theorem getUri_of_reads {c : CompactUriMapper} {i j k : Int} {b ip : Slice} (udp : Bool)
    (hin : i < c.numSvrs ∧ j < c.numPorts) (hk : c.portPos i j = some k)
    (hport : read c.svrMap k 2 = some b) (hip : read c.svrMap (c.ipPos i) 4 = some ip) :
    c.getUri udp i j = some (CompactUriMapper.uri udp ip (fixedValue b)) := by
  rw [CompactUriMapper.getUri, if_pos hin, hk, Option.bind_some, hport, Option.bind_some, hip,
    Option.map_some]

/-- **Sane counts are in bounds.** The map is as long as the counts say, so what is
computed from them is inside. -/
theorem Sane.inBounds (hs : Sane n p) (h : parseMapData m = some (some (n, p))) :
    InBounds m n p := by
  obtain ⟨hn, hp, hsmall⟩ := hs
  refine ⟨hn, hp, fun i j hi hin hj hjp => ?_⟩
  have hlt : 2 * p * n < 2 ^ 31 := by
    rcases hsmall with hsmall | hsmall | hsmall <;> omega
  have hlen := size_of_parse h hn hp
  have hprod : 0 ≤ 2 * p * n := Int.mul_nonneg (by omega) hn
  refine ⟨_, _, new_eq hp hn hlt (by omega) hlen, portPos_eq hi hin hj hjp hlt, ?_⟩
  have hidx := index_lt hin hjp hp
  have hip : 0 ≤ i * p := Int.mul_nonneg hi hp
  rw [Int.mul_assoc] at hlen hprod
  rw [CompactUriMapper.ipPos]
  dsimp only
  rw [Int.mul_assoc]
  omega

/-- What is in bounds has sane counts. -/
theorem InBounds.sane (hb : InBounds m n p) : Sane n p := by
  refine ⟨hb.svrs, hb.ports, ?_⟩
  by_cases hn : n = 0
  · exact .inl hn
  by_cases hp : p = 0
  · exact .inr (.inl hp)
  have hsvrs := hb.svrs
  have hports := hb.ports
  -- the constructor has computed where the ips are
  obtain ⟨c, -, hnew, -⟩ := hb.reads 0 0 (by omega) (by omega) (by omega) (by omega)
  simp only [new, Option.bind_eq_some_iff, Option.map_eq_some_iff, int_eq_some] at hnew
  obtain ⟨-, -, x, ⟨rfl, -⟩, y, ⟨rfl, -, hlt⟩, -⟩ := hnew
  exact .inr (.inr hlt)

end

/-! ## What the server has gathered

The layout of the map as three parts, and where in them a port and an ip are. A lookup reads at
a position that is computed from the counts, and finds what the rank has sent. -/

section

variable {bytes : Nat → Slice} {w : Nat}

theorem length_gather (hw : ∀ i, (bytes i).length = w) (i k : Nat) :
    (Ranks.gather bytes i k).length = w * k := by
  induction k generalizing i with
  | zero => rfl
  | succ k ih =>
    rw [Ranks.gather, List.length_append, hw, ih, Nat.mul_succ]
    omega

/-- What one of them has sent is where its turn is. -/
theorem gather_slice (hw : ∀ i, (bytes i).length = w) {i k : Nat} (hi : i < k) (j : Nat) :
    ((Ranks.gather bytes j k).drop (w * i)).take w = bytes (j + i) := by
  induction k generalizing i j with
  | zero => omega
  | succ k ih =>
    cases i with
    | zero => rw [Ranks.gather, Nat.mul_zero, List.drop_zero, List.take_left' (hw j), Nat.add_zero]
    | succ i =>
      have hdrop : w * (i + 1) = (bytes j).length + w * i := by rw [hw, Nat.mul_succ, Nat.add_comm]
      rw [Ranks.gather, hdrop, List.drop_append, List.drop_of_length_le (Nat.le_add_right _ _),
        List.nil_append, Nat.add_sub_cancel_left, ih (by omega) (j + 1), Nat.add_right_comm,
        Nat.add_assoc]

/-- Bytes are put where others are. -/
theorem write_middle {a b c b' : Slice} {k : Int} (hk : k = a.length) (hlen : b'.length = b.length) :
    write (a ++ b ++ c) k b' = some (a ++ b' ++ c) := by
  have hfit : 0 ≤ k ∧ k + b'.length ≤ (a ++ b ++ c).length := by
    rw [List.length_append, List.length_append]
    omega
  have hdrop : (a ++ b ++ c).drop (a.length + b.length) = c := by
    rw [← List.length_append, List.drop_left]
  rw [write, if_pos hfit, hk, Int.toNat_natCast, hlen, hdrop, List.append_assoc a b c,
    List.take_left]

/-- What is read from a part of a string. -/
theorem read_middle {a b c : Slice} {k n : Nat} (h : k + n ≤ b.length) :
    read (a ++ b ++ c) (a.length + k : Nat) n = some ((b.drop k).take n) := by
  have hfit : (0 : Int) ≤ (a.length + k : Nat) ∧
      ((a.length + k : Nat) : Int) + n ≤ (a ++ b ++ c).length := by
    rw [List.length_append, List.length_append]
    omega
  have htake : n ≤ (b.drop k).length := by
    rw [List.length_drop]
    omega
  rw [read, if_pos hfit, Int.toNat_natCast, List.append_assoc, List.drop_append,
    List.drop_of_length_le (Nat.le_add_right _ _), List.nil_append, Nat.add_sub_cancel_left,
    List.drop_append_of_le_length (by omega), List.take_append_of_le_length htake]

/-- A part of a part. -/
theorem slice_slice {l : Slice} {a b c d : Nat} (h : c + d ≤ b) :
    (((l.drop a).take b).drop c).take d = (l.drop (a + c)).take d := by
  rw [List.drop_take, List.take_take, List.drop_drop, Nat.min_eq_left (by omega)]

/-- What has been written to a string of zeros: its last eight bytes first, then
the rest from the start on. -/
theorem write_layout {s : Nat} {ports ips cs np : Slice}
    (hsize : s = ports.length + ips.length + 4 + 4) (hcs : cs.length = 4) (hnp : np.length = 4) :
    ((write (List.replicate s 0) (s - 8) cs).bind fun m =>
      (write m (s - 4) np).bind fun m => (write m 0 ports).bind fun m =>
        write m ports.length ips) = some (ports ++ ips ++ (cs ++ np)) := by
  -- the four parts before they are written
  obtain ⟨a, ha⟩ : ∃ a, a = List.replicate ports.length (0 : UInt8) := ⟨_, rfl⟩
  obtain ⟨b, hb⟩ : ∃ b, b = List.replicate ips.length (0 : UInt8) := ⟨_, rfl⟩
  obtain ⟨z, hz⟩ : ∃ z, z = List.replicate 4 (0 : UInt8) := ⟨_, rfl⟩
  have hzeros : List.replicate s (0 : UInt8) = a ++ b ++ z ++ z := by
    simp only [hsize, ha, hb, hz, List.replicate_append_replicate]
  have hal : ports.length = a.length := by rw [ha, List.length_replicate]
  have hbl : ips.length = b.length := by rw [hb, List.length_replicate]
  have hzl : z.length = 4 := by rw [hz, List.length_replicate]
  have habl : (a ++ b).length = s - 8 := by
    rw [List.length_append]
    omega
  have hw₁ : write (a ++ b ++ z ++ z) (s - 8) cs = some (a ++ b ++ cs ++ z) :=
    write_middle (by omega) (by omega)
  have hw₂ : write (a ++ b ++ cs ++ z) (s - 4) np = some (a ++ b ++ cs ++ np) := by
    have hw : write (a ++ b ++ cs ++ z ++ []) (s - 4) np = some (a ++ b ++ cs ++ np ++ []) :=
      write_middle (by rw [List.length_append]; omega) (by omega)
    rwa [List.append_nil, List.append_nil] at hw
  have hw₃ : write ([] ++ a ++ (b ++ cs ++ np)) 0 ports = some ([] ++ ports ++ (b ++ cs ++ np)) :=
    write_middle rfl hal
  have hw₄ : write (ports ++ b ++ (cs ++ np)) ports.length ips =
      some (ports ++ ips ++ (cs ++ np)) := write_middle rfl hbl
  simp only [List.nil_append, List.append_assoc] at hw₁ hw₂ hw₃ hw₄ ⊢
  rw [hzeros, List.append_assoc, List.append_assoc, hw₁, Option.bind_some, hw₂, Option.bind_some,
    hw₃, Option.bind_some, hw₄]

end

namespace Ranks

variable (r : Ranks)

/-- The ports of all ranks. -/
def portMap : Slice := gather r.portBytes 0 r.commSize

/-- The ips of all ranks. -/
def ipMap : Slice := gather r.ipBytes 0 r.commSize

/-- How many ranks and ports there are. -/
def footer : Slice :=
  encodeFixed32 (UInt32.ofNat r.commSize) ++ encodeFixed32 (UInt32.ofNat r.np)

@[simp] theorem length_portBytes (i : Nat) : (r.portBytes i).length = 2 * r.np :=
  length_gather (fun _ => length_fixedBytes ..) 0 r.np

@[simp] theorem length_ipBytes (i : Nat) : (r.ipBytes i).length = 4 := length_fixedBytes ..

@[simp] theorem length_portMap : r.portMap.length = 2 * r.np * r.commSize :=
  length_gather r.length_portBytes 0 r.commSize

@[simp] theorem length_ipMap : r.ipMap.length = 4 * r.commSize :=
  length_gather r.length_ipBytes 0 r.commSize

/-- What is computed before anything is gathered. -/
theorem svrMap_ints {m : Slice} (h : r.svrMap = some m) :
    2 * (r.np : Int) + 4 < 2 ^ 31 ∧ 2 * (r.np : Int) * r.commSize < 2 ^ 31 := by
  simp only [svrMap, fill, Option.bind_eq_some_iff, int_eq_some] at h
  obtain ⟨x, ⟨rfl, -⟩, y, ⟨rfl, -, hlt⟩, z, ⟨rfl, -⟩, w, ⟨rfl, -, hlt'⟩, -⟩ := h
  exact ⟨hlt, hlt'⟩

/-- The length of the map. -/
theorem size_eq (hlt : 2 * (r.np : Int) * r.commSize < 2 ^ 31) :
    (((2 * (r.np : Int) + 4) * r.commSize + 8) % 2 ^ 64).toNat =
      2 * r.np * r.commSize + 4 * r.commSize + 4 + 4 := by
  have hcomm := r.commSize_lt
  have hcast : 2 * (r.np : Int) * r.commSize = (2 * r.np * r.commSize : Nat) := by push_cast; rfl
  rw [Int.add_mul, hcast]
  rw [hcast] at hlt
  generalize 2 * r.np * r.commSize = area at hlt
  rw [Int.emod_eq_of_lt (by omega) (by omega)]
  omega

/-- **The ports of all ranks, then the ips, then the footer.** -/
theorem svrMap_eq {m : Slice} (h : r.svrMap = some m) : m = r.portMap ++ r.ipMap ++ r.footer := by
  obtain ⟨hlt, hlt'⟩ := r.svrMap_ints h
  have hpos : 0 ≤ 2 * (r.np : Int) * r.commSize := by positivity
  have hx : int (2 * (r.np : Int)) = some (2 * (r.np : Int)) := int_of_mem (by omega)
  have hy : int (2 * (r.np : Int) + 4) = some (2 * (r.np : Int) + 4) := int_of_mem (by omega)
  have hz : int (2 * (r.np : Int) * r.commSize) = some (2 * (r.np : Int) * r.commSize) :=
    int_of_mem ⟨by omega, hlt'⟩
  have hcast : 2 * (r.np : Int) * r.commSize = (r.portMap.length : Int) := by
    rw [length_portMap]
    push_cast
    rfl
  rw [svrMap, hx, Option.bind_some, hy, Option.bind_some, r.size_eq hlt', fill, hx,
    Option.bind_some, hz, Option.bind_some, hcast, ← portMap, ← ipMap,
    write_layout (by rw [length_portMap, length_ipMap]) (length_encodeFixed32 _)
      (length_encodeFixed32 _)] at h
  exact (Option.some.inj h).symm

/-- **A client accepts the map**, with the counts of the server. The two counts are at
the end, and the map was put together from as many ports and addresses. -/
theorem parse_svrMap {m : Slice} (h : r.svrMap = some m) :
    parseMapData m = some (some ((r.commSize : Int), (r.np : Int))) := by
  obtain ⟨hlt, hlt'⟩ := r.svrMap_ints h
  have hpos : 0 ≤ 2 * (r.np : Int) * r.commSize := by positivity
  have hints : ∀ n, n < 2 ^ 31 → intOf (decodeFixed32 (encodeFixed32 (UInt32.ofNat n))) = n := by
    intro n hn
    rw [decodeFixed32_encodeFixed32, intOf, UInt32.toNat_ofNat', Nat.mod_eq_of_lt (by omega), if_pos hn]
  have hcs := length_encodeFixed32 (UInt32.ofNat r.commSize)
  have hnp := length_encodeFixed32 (UInt32.ofNat r.np)
  have hsize : ((m.length : Nat) : Int) = (2 * r.np + 4) * r.commSize + 8 := by
    rw [r.svrMap_eq h, footer, List.length_append, List.length_append, List.length_append,
      length_portMap, length_ipMap, hcs, hnp]
    push_cast
    ring
  have hfooter : r.footer.length = 8 := by rw [footer, List.length_append, hcs, hnp]
  have hlen : m.length = (r.portMap ++ r.ipMap).length + 8 := by
    rw [r.svrMap_eq h, @List.length_append UInt8 _ r.footer, hfooter]
  have hdrop : m.drop (m.length - 8) = r.footer := by
    rw [hlen, Nat.add_sub_cancel, r.svrMap_eq h, List.drop_left]
  have hdrop' : m.drop (m.length - 4) = encodeFixed32 (UInt32.ofNat r.np) := by
    rw [show m.length - 4 = m.length - 8 + 4 by omega, ← List.drop_drop, hdrop, footer,
      List.drop_left' hcs]
  have hx : int (2 * (r.np : Int)) = some (2 * (r.np : Int)) := int_of_mem (by omega)
  have hy : int (2 * (r.np : Int) + 4) = some (2 * (r.np : Int) + 4) := int_of_mem (by omega)
  rw [parseMapData, if_pos (by omega), hdrop, hdrop', footer, List.take_left' hcs,
    hints _ r.commSize_lt, hints _ r.np_lt]
  dsimp only
  rw [hx, Option.bind_some, hy, Option.map_some, hsize, if_pos rfl]

/-- **What is looked up** is the address of the rank and the port. Ports have two bytes and
ips four, at the places where the server has put them. -/
theorem getUri_svrMap {m : Slice} (h : r.svrMap = some m) (udp : Bool) {i j : Nat}
    (hi : i < r.commSize) (hj : j < r.np) :
    ∃ c, new m r.commSize r.np = some c ∧
      c.getUri udp i j = some (CompactUriMapper.uri udp (r.ipBytes i) (r.ports i j).toNat) := by
  obtain ⟨hlt, hlt'⟩ := r.svrMap_ints h
  have hlen := size_of_parse (r.parse_svrMap h) (Int.natCast_nonneg _) (Int.natCast_nonneg _)
  have hnew := new_eq (Int.natCast_nonneg r.np) (Int.natCast_nonneg r.commSize) hlt' (by omega) hlen
  refine ⟨_, hnew, ?_⟩
  have hidx : 2 * r.np * i + 2 * j + 2 ≤ r.portMap.length := by
    have hle : 2 * r.np * (i + 1) ≤ 2 * r.np * r.commSize := Nat.mul_le_mul_left _ (by omega)
    rw [length_portMap]
    rw [Nat.mul_succ] at hle
    omega
  have hport : read m (2 * (i * r.np + j : Int)) 2 = some (fixedBytes 2 (r.ports i j).toNat) := by
    have hrow := gather_slice r.length_portBytes hi 0
    have hcol := gather_slice (fun j => length_fixedBytes 2 (r.ports i j).toNat) hj 0
    rw [Nat.zero_add] at hrow hcol
    have hread : read ([] ++ r.portMap ++ (r.ipMap ++ r.footer)) (0 + (2 * r.np * i + 2 * j) : Nat) 2 =
        some ((r.portMap.drop (2 * r.np * i + 2 * j)).take 2) := read_middle hidx
    rw [← slice_slice (by omega : 2 * j + 2 ≤ 2 * r.np), portMap, hrow, portBytes, hcol] at hread
    have hpos : ((0 + (2 * r.np * i + 2 * j) : Nat) : Int) = 2 * (i * r.np + j) := by
      push_cast
      ring
    rw [r.svrMap_eq h, ← hread, hpos, List.nil_append, List.append_assoc, portMap]
  have hip : read m (2 * r.np * r.commSize + 4 * i : Int) 4 = some (r.ipBytes i) := by
    have hrow := gather_slice r.length_ipBytes hi 0
    rw [Nat.zero_add] at hrow
    have hread : read (r.portMap ++ r.ipMap ++ r.footer) (r.portMap.length + 4 * i : Nat) 4 =
        some ((r.ipMap.drop (4 * i)).take 4) := read_middle (by rw [length_ipMap]; omega)
    rw [ipMap, hrow, ← ipMap] at hread
    have hpos : ((r.portMap.length + 4 * i : Nat) : Int) = 2 * r.np * r.commSize + 4 * i := by
      rw [length_portMap]
      push_cast
      rfl
    rw [r.svrMap_eq h, ← hread, hpos]
  have hvalue : fixedValue (fixedBytes 2 (r.ports i j).toNat) = (r.ports i j).toNat := by
    rw [fixedValue_fixedBytes]
    exact Nat.mod_eq_of_lt (r.ports i j).toNat_lt
  have hin : (i : Int) < r.commSize ∧ (j : Int) < r.np := by omega
  have hk := portPos_eq (c := ⟨m, 2 * r.np * r.commSize, r.np, r.commSize⟩) (Int.natCast_nonneg i)
    hin.1 (Int.natCast_nonneg j) hin.2 hlt'
  rw [getUri_of_reads udp hin hk hport hip, hvalue]

end Ranks

/-- **What a client accepts and what it looks up.** The lookups of an accepted map are
in bounds exactly if its counts are sane, and those of a server's map are, and find
what was gathered.

`ParseMapData` compares the size of the map with what its counts make of it, in the widths
that the code has them in. That is enough for the counts of a server; other maps pass whose
counts are negative, or large enough to wrap. -/
theorem lookups_exact (m : Slice) :
    (∀ n p, parseMapData m = some (some (n, p)) → (InBounds m n p ↔ Sane n p)) ∧
    (∀ r : Ranks, r.svrMap = some m →
      parseMapData m = some (some ((r.commSize : Int), (r.np : Int))) ∧
      InBounds m r.commSize r.np ∧
      ∀ udp, ∀ i < r.commSize, ∀ j < r.np, ∃ c, new m r.commSize r.np = some c ∧
        c.getUri udp i j = some (CompactUriMapper.uri udp (r.ipBytes i) (r.ports i j).toNat)) := by
  constructor
  · intro n p h
    exact ⟨InBounds.sane, fun hs => hs.inBounds h⟩
  · intro r h
    have hparse := r.parse_svrMap h
    have hsane : Sane r.commSize r.np :=
      ⟨Int.natCast_nonneg _, Int.natCast_nonneg _, .inr (.inr (r.svrMap_ints h).2)⟩
    exact ⟨hparse, hsane.inBounds hparse, fun udp i hi j hj => r.getUri_svrMap h udp hi hj⟩

theorem one_lt_int : 1 < 2 ^ 31 := by decide

theorem two_lt_int : 2 < 2 ^ 31 := by decide

/-- Two ranks with a port each. -/
def twoRanks : Ranks where
  commSize := 2
  np := 1
  ports i _ := if i = 0 then 8000 else 8001
  ips i := if i = 0 then 0x0100000a else 0x0200000a
  commSize_lt := two_lt_int
  np_lt := one_lt_int

example : (twoRanks.svrMap.bind fun m => (new m 2 1).bind fun c => c.getUri false 1 0) =
    some (str "tcp://10.0.0.2:8001") := by decide

theorem lookups_exact_twoRanks : ∃ m, twoRanks.svrMap = some m ∧ InBounds m 2 1 := by
  obtain ⟨m, hm⟩ := Option.isSome_iff_exists.1 (by decide : twoRanks.svrMap.isSome = true)
  exact ⟨m, hm, ((lookups_exact m).2 twoRanks hm).2.1⟩

/-- A map of eight bytes, for five servers with minus two ports each. -/
def noRoom : Slice := [5, 0, 0, 0, 0xfe, 0xff, 0xff, 0xff]

theorem noRoom_accepted : ¬ ∀ m n p, parseMapData m = some (some (n, p)) → InBounds m n p := by
  intro h
  have hb := h noRoom 5 (-2) (by decide)
  exact absurd hb.ports (by decide)

end UriMap

end DeltaFs
