import MuOS.Net.Wire

namespace MuOS.Net.Checksums

open Wire List

/-- The words of a byte string, added up; an odd last byte is a high half. -/
def wordSum : List Byte → Nat
  | a :: b :: rest => (a ++ b : BitVec 16).toNat + wordSum rest
  | [a] => (a ++ 0#8 : BitVec 16).toNat
  | [] => 0

def withField (data : List Byte) (off : Nat) (field : List Byte) : List Byte :=
  data.take off ++ field ++ data.drop (off + 2)

/-- The field is zeroed, and then takes the checksum of the whole. -/
def stored (data : List Byte) (off : Nat) (s : BitVec 32) : List Byte :=
  withField data off (put16be (netCksum (withField data off [0#8, 0#8]) s))

variable {l p q : List Byte} {s : BitVec 32} {v : BitVec 16}

theorem wordSum_le (l : List Byte) : 2 * wordSum l ≤ 65535 * (l.length + 1) := by
  induction l using wordSum.induct with
  | case1 a b rest ih =>
    have := (a ++ b : BitVec 16).isLt
    simp only [wordSum, length_cons]
    omega
  | case2 a =>
    have := (a ++ 0#8 : BitVec 16).isLt
    simp only [wordSum, length_cons, length_nil]
    omega
  | case3 => exact Nat.zero_le _

theorem sum_fits (hl : l.length ≤ 65535) (hs : s.toNat < 2147483648) :
    s.toNat + wordSum l < 4294967296 := by
  have := wordSum_le l
  omega

theorem addWords_toNat (h : s.toNat + wordSum l < 4294967296) :
    (addWords s l).toNat = s.toNat + wordSum l := by
  induction l using wordSum.induct generalizing s with
  | case1 a b rest ih =>
    have hs : (s + (a ++ b : BitVec 16).setWidth 32).toNat = s.toNat + (a ++ b : BitVec 16).toNat := by
      simp only [wordSum] at h
      rw [BitVec.toNat_add, BitVec.toNat_setWidth]
      omega
    rw [addWords, ih (by rw [hs]; simp only [wordSum] at h; omega), hs, wordSum, Nat.add_assoc]
  | case2 a =>
    simp only [wordSum] at h
    rw [addWords, wordSum, BitVec.toNat_add, BitVec.toNat_setWidth]
    omega
  | case3 => rfl

theorem wordSum_append {n : Nat} (hl : l.length = 2 * n) (post : List Byte) :
    wordSum (l ++ post) = wordSum l + wordSum post := by
  induction l using wordSum.induct generalizing n with
  | case1 a b rest ih =>
    rw [length_cons, length_cons] at hl
    rw [cons_append, cons_append, wordSum, wordSum, ih (n := n - 1) (by omega), Nat.add_assoc]
  | case2 a =>
    rw [length_singleton] at hl
    omega
  | case3 => exact (Nat.zero_add _).symm

theorem wordSum_put16be (v : BitVec 16) (post : List Byte) :
    wordSum (put16be v ++ post) = v.toNat + wordSum post := by
  have hv : v.extractLsb' 8 8 ++ v.extractLsb' 0 8 = v := by
    rw [BitVec.extractLsb'_append_extractLsb'_eq_extractLsb' (by omega)]
    exact BitVec.extractLsb'_eq_self
  exact congrArg (fun w : BitVec 16 => w.toNat + wordSum post) hv

theorem foldCarry_toNat (x : BitVec 32) :
    (foldCarry x).toNat = x.toNat % 65536 + x.toNat / 65536 := by
  have hand : x.toNat &&& 65535 = x.toNat % 65536 := Nat.and_two_pow_sub_one_eq_mod x.toNat 16
  have hshift : x.toNat >>> 16 = x.toNat / 65536 := Nat.shiftRight_eq_div_pow x.toNat 16
  have := x.isLt
  rw [foldCarry, BitVec.toNat_add, BitVec.toNat_and, BitVec.toNat_ushiftRight, hshift]
  change ((x.toNat &&& 65535) + _) % _ = _
  rw [hand]
  omega

theorem netCksum_toNat (h : s.toNat + wordSum l < 4294967296) :
    ∃ r, (netCksum l s).toNat + r = 65535 ∧ (s.toNat + wordSum l) % 65535 = r % 65535 ∧
    (r = 0 ↔ s.toNat + wordSum l = 0) := by
  have hx := addWords_toNat h
  refine ⟨(foldCarry (foldCarry (addWords s l))).toNat, ?_, ?_, ?_⟩
  · rw [netCksum, BitVec.toNat_not, BitVec.toNat_setWidth, foldCarry_toNat, foldCarry_toNat, hx]
    omega
  · rw [foldCarry_toNat, foldCarry_toNat, hx]
    omega
  · rw [foldCarry_toNat, foldCarry_toNat, hx]
    omega

/-- With the checksum the sum is a positive multiple of 65535. -/
theorem cksum_cancels {n : Nat} (hp : p.length = 2 * n) (hv : v = netCksum (p ++ [0#8, 0#8] ++ q) s)
    (h : s.toNat + wordSum (p ++ put16be v ++ q) < 4294967296) :
    netCksum (p ++ put16be v ++ q) s = 0#16 := by
  have h0 : wordSum (p ++ [0#8, 0#8] ++ q) = wordSum p + wordSum q := by
    rw [append_assoc, wordSum_append hp]
    exact congrArg _ (Nat.zero_add _)
  have h1 : wordSum (p ++ put16be v ++ q) = wordSum p + (v.toNat + wordSum q) := by
    rw [append_assoc, wordSum_append hp, wordSum_put16be]
  obtain ⟨r, hr, hmod, hzero⟩ := netCksum_toNat (l := p ++ [0#8, 0#8] ++ q) (s := s) (by omega)
  obtain ⟨t, ht, hmod', hzero'⟩ := netCksum_toNat h
  rw [← hv] at hr
  apply BitVec.eq_of_toNat_eq
  rw [BitVec.toNat_ofNat]
  omega

theorem pseudo_fits (src dst : BitVec 32) (n : BitVec 16) :
    (addWords 0#32 (addrBytes src ++ addrBytes dst ++ [0#8, 6#8] ++ put16be n)).toNat <
    2147483648 := by
  have hle := wordSum_le (addrBytes src ++ addrBytes dst ++ [0#8, 6#8] ++ put16be n)
  change 2 * _ ≤ 65535 * 13 at hle
  rw [addWords_toNat (by simp only [BitVec.toNat_ofNat]; omega), BitVec.toNat_ofNat]
  omega

theorem tcp_cancels (src dst : BitVec 32) (hp : p.length = 2 * 8) (hq : q.length ≤ 65515) :
    tcpCksum src dst
    (p ++ put16be (tcpCksum src dst (p ++ [0#8, 0#8, 0#8, 0#8] ++ q)) ++ [0#8, 0#8] ++
    q) = 0#16 := by
  have hz : p ++ [0#8, 0#8, 0#8, 0#8] ++ q = p ++ [0#8, 0#8] ++ ([0#8, 0#8] ++ q) := by
    simp only [append_assoc]; rfl
  have hlen : ∀ a b, (p ++ [a, b] ++ ([0#8, 0#8] ++ q)).length = 20 + q.length := by
    intro a b
    simp only [length_append, length_cons, length_nil, hp]
    omega
  rw [append_assoc (_ ++ _), hz, tcpCksum, tcpCksum, put16be, hlen, hlen]
  exact cksum_cancels hp rfl (sum_fits (by rw [put16be, hlen]; omega) (pseudo_fits src dst _))

/-- Every header, message and segment that the senders build has the checksum that makes its sum
come out as 0. -/
theorem checksums_cancel : (∀ data off s, off % 2 = 0 → off + 2 ≤ data.length →
      s.toNat + wordSum (stored data off s) < 4294967296 → netCksum (stored data off s) s = 0#16) ∧
    (∀ ident proto src dst tot, netCksum (ipHeader ident proto src dst tot) 0#32 = 0#16) ∧
    (∀ bytes : List Byte, bytes.length ≤ 65535 → netCksum ([0#8, byteAt bytes 1] ++
      put16be (netCksum ([0#8, byteAt bytes 1, 0#8, 0#8] ++ bytes.drop 4) 0#32) ++
      bytes.drop 4) 0#32 = 0#16) ∧
    ∀ src dst lport rport seq ack flags data, data.length ≤ 512 →
      tcpCksum src dst (tcpSegment src dst lport rport seq ack flags data) = 0#16 := by
  refine ⟨fun data off s hoff hlen h => ?_, fun _ _ _ _ _ =>
    cksum_cancels (n := 5) rfl rfl (sum_fits (show 20 ≤ 65535 by decide) (by decide)), fun bytes hb => ?_,
    fun src dst lport rport seq ack flags data hd => tcp_cancels src dst rfl (by omega)⟩
  · refine cksum_cancels (n := off / 2) ?_ rfl h
    rw [length_take]
    omega
  · refine cksum_cancels (p := [0#8, byteAt bytes 1]) (n := 1) rfl rfl (sum_fits ?_ (by decide))
    simp only [put16be, length_append, length_cons, length_nil, length_drop]
    omega

/-- An odd length, the field in the middle and a starting sum. -/
theorem checksums_cancel_odd : netCksum (stored [1#8, 2#8, 3#8, 4#8, 5#8] 2 7#32) 7#32 = 0#16 :=
  checksums_cancel.1 _ 2 _ (by decide) (by decide) (by decide +kernel)

end MuOS.Net.Checksums
