import Mathlib.Algebra.Ring.Nat
import Mathlib.Tactic.Common
import ProcessModel.Files.Disk
import ProcessModel.Series

/-! Doubles as bytes.

The bits of a double tell which one it is, so that a list of doubles can be read back from its
bytes. Patching bytes at the place of a record does to the doubles what setting the record does. -/

namespace ProcessModel

namespace Real64

open Float.Model Float.Model.UnpackedFloat

/-! ### Bits -/

theorem toBitVec_ofBitVec (b : BitVec 1) : (Sign.ofBitVec b).toBitVec = b := by
  revert b
  decide

theorem packComponents_unpack (b : BitVec 64) :
    packComponents .binary64 (Sign.ofBitVec (@unpackSign .binary64 b))
      (@unpackExponent .binary64 b) (@unpackMantissa .binary64 b) = b := by
  rw [packComponents, toBitVec_ofBitVec]
  show (b.extractLsb' 63 1 ++ b.extractLsb' 52 11) ++ b.extractLsb' 0 52 = b
  rw [BitVec.extractLsb'_append_extractLsb'_eq_extractLsb' (by decide),
    BitVec.extractLsb'_append_extractLsb'_eq_extractLsb' (by decide)]
  exact BitVec.extractLsb'_eq_self

theorem pack_finite {s : Sign} {m biased : Nat} {e : Int} {hm : 0 < m}
    (hbiased : (e + 1023 + 52).toNat = biased) (hlt : biased + 1 < 2 ^ 11) :
    UnpackedFloat.pack .binary64 (.finite s m e hm) =
      packComponents .binary64 s (if m.log2 + 1 = 53 then BitVec.ofNat 11 biased else 0#11)
        (BitVec.ofNat 52 m) := by
  subst hbiased
  exact (if_neg (Nat.not_le.2 hlt)).trans (apply_ite (packComponents .binary64 s · _) _ _ _).symm

theorem pack_normal (s : Sign) {exponent : BitVec 11} (mantissa : BitVec 52)
    (hexponent : exponent ≠ -1#11) (hpos : 0 < (1#1 ++ mantissa).toNat) :
    UnpackedFloat.pack .binary64
        (.finite s (1#1 ++ mantissa).toNat ((exponent.toNat : Int) - (1023 + 52)) hpos) =
      packComponents .binary64 s exponent mantissa := by
  have hmantissa := mantissa.isLt
  have hvalue : (1#1 ++ mantissa).toNat = 2 ^ 52 + mantissa.toNat := by
    have hone : (1#1).toNat <<< 52 = 2 ^ 52 := by decide
    rw [BitVec.toNat_append, hone, Nat.or_comm, Nat.or_two_pow_eq_add_of_lt hmantissa, Nat.add_comm]
  have hlog : (1#1 ++ mantissa).toNat.log2 = 52 := by
    rw [hvalue, Nat.log2_eq_iff (by omega)]
    omega
  have hlt : exponent.toNat + 1 < 2 ^ 11 := by
    have hones : exponent.toNat ≠ (-1#11).toNat := fun h => hexponent (BitVec.eq_of_toNat_eq h)
    have hmax : (-1#11).toNat = 2047 := by decide
    have := exponent.isLt
    omega
  have hround : BitVec.ofNat 52 (1#1 ++ mantissa).toNat = mantissa := by
    apply BitVec.eq_of_toNat_eq
    rw [BitVec.toNat_ofNat, hvalue]
    omega
  rw [pack_finite (by omega) hlt, if_pos (by rw [hlog]), hround, BitVec.ofNat_toNat,
    BitVec.setWidth_eq]

theorem pack_subnormal (s : Sign) (mantissa : BitVec 52) (hpos : 0 < mantissa.toNat) :
    UnpackedFloat.pack .binary64
        (.finite s mantissa.toNat (((0#11).toNat : Int) - (1023 + 52) + 1) hpos) =
      packComponents .binary64 s 0#11 mantissa := by
  have hlog : mantissa.toNat.log2 + 1 ≠ 53 := by
    have hlt := (Nat.log2_lt (Nat.ne_of_gt hpos)).2 mantissa.isLt
    omega
  have hbiased : (((0#11).toNat : Int) - (1023 + 52) + 1 + 1023 + 52).toNat = 1 := by decide
  rw [pack_finite hbiased (by decide), if_neg hlog, BitVec.ofNat_toNat, BitVec.setWidth_eq]

theorem pack_unpack {b : BitVec 64} (h : Format.binary64.Valid b) :
    UnpackedFloat.pack .binary64 (UnpackedFloat.unpack .binary64 b) = b := by
  have hparts := packComponents_unpack b
  unfold UnpackedFloat.unpack
  dsimp only
  by_cases hones : @unpackExponent .binary64 b = -1#11
  · rw [if_pos hones]
    by_cases hzero : @unpackMantissa .binary64 b = 0#52
    · rw [if_pos hzero]
      rw [hones, hzero] at hparts
      exact hparts
    · rw [if_neg hzero]
      exact (h.eq_packedNaN hones hzero).symm
  · rw [if_neg hones]
    by_cases hnone : @unpackExponent .binary64 b = 0#11
    · rw [if_pos hnone]
      by_cases hzero : @unpackMantissa .binary64 b = 0#52
      · rw [dif_pos hzero]
        rw [hnone, hzero] at hparts
        exact hparts
      · rw [dif_neg hzero]
        have hbits := pack_subnormal (Sign.ofBitVec (@unpackSign .binary64 b))
          (@unpackMantissa .binary64 b)
        rw [hnone] at hparts ⊢
        exact (hbits _).trans hparts
    · rw [if_neg hnone]
      exact (pack_normal _ _ hones _).trans hparts

theorem ofBits_toBits (x : Float) : Float.ofBits x.toBits = x := by
  obtain ⟨bits, hvalid⟩ := x
  have hpack : Float.Model.ofBits bits = ⟨bits, hvalid⟩ := by
    rw [Float.Model.ofBits, Float.Model.pack]
    congr 1
    rw [pack_unpack hvalid]
  exact congrArg Float.ofModel hpack

end Real64

namespace Series

/-! ### Reading back -/

theorem foldr_bytes (n k : Nat) :
    ((List.range k).map fun i => UInt8.ofNat (n / 2 ^ (8 * i) % 2 ^ 8)).foldr
      (fun b m => b.toNat + 2 ^ 8 * m) 0 = n % 2 ^ (8 * k) := by
  induction k generalizing n with
  | zero => simp [Nat.mod_one]
  | succ k ih =>
    have hshift : ∀ i, n / 2 ^ (8 * (i + 1)) = n / 2 ^ 8 / 2 ^ (8 * i) := fun i => by
      rw [Nat.div_div_eq_div_mul, ← Nat.pow_add]
      congr 2
      omega
    have hsplit : n % 2 ^ (8 * (k + 1)) = n % 2 ^ 8 + 2 ^ 8 * (n / 2 ^ 8 % 2 ^ (8 * k)) := by
      rw [show 8 * (k + 1) = 8 + 8 * k by omega, Nat.pow_add, Nat.mod_mul]
    rw [List.range_succ_eq_map, List.map_cons, List.map_map, List.foldr_cons, hsplit, ← ih]
    simp only [Function.comp_def, hshift]
    simp

theorem decodeOne_encodeOne (x : Float) : decodeOne (encodeOne x) = x := by
  have hbits : (encodeOne x).foldr (fun b n => b.toNat + Nat.pow 2 8 * n) 0 = x.toBits.toNat := by
    refine (foldr_bytes x.toBits.toNat 8).trans (Nat.mod_eq_of_lt ?_)
    exact x.toBits.toNat_lt
  rw [decodeOne, hbits, UInt64.ofNat_toNat, Real64.ofBits_toBits]

@[simp] theorem length_encodeOne (x : Float) : (encodeOne x).length = 8 := by
  simp [encodeOne]

theorem decodeList_encodeOne_append (x : Float) (rest : List UInt8) :
    decodeList (encodeOne x ++ rest) = x :: decodeList rest := by
  have hone := decodeOne_encodeOne x
  obtain ⟨b0, b1, b2, b3, b4, b5, b6, b7, hbytes⟩ :
      ∃ b0 b1 b2 b3 b4 b5 b6 b7, encodeOne x = [b0, b1, b2, b3, b4, b5, b6, b7] :=
    ⟨_, _, _, _, _, _, _, _, rfl⟩
  rw [hbytes] at hone ⊢
  rw [← hone]
  rfl

theorem decode_encode (values : List Float) : decode (encode values) = values := by
  rw [decode, encode]
  induction values with
  | nil => rfl
  | cons x values ih =>
    rw [List.flatMap_cons, decodeList_encodeOne_append]
    exact congrArg (x :: ·) ih

/-! ### Patches -/

theorem toList_encode (values : List Float) :
    (encode values).data.toList = values.flatMap encodeOne := rfl

variable {α β : Type} {f : α → List β} {xs : List α}

theorem length_flatMap {k : Nat} (h : ∀ x ∈ xs, (f x).length = k) :
    (xs.flatMap f).length = k * xs.length := by
  induction xs with
  | nil => rfl
  | cons x xs ih =>
    rw [List.flatMap_cons, List.length_append, h x List.mem_cons_self,
      ih fun y hy => h y (List.mem_cons_of_mem _ hy), List.length_cons, Nat.mul_add, Nat.mul_one,
      Nat.add_comm]

theorem take_flatMap {k : Nat} (h : ∀ x ∈ xs, (f x).length = k) (n : Nat) :
    (xs.flatMap f).take (k * n) = (xs.take n).flatMap f := by
  induction xs generalizing n with
  | nil => simp
  | cons x xs ih =>
    cases n with
    | zero => simp
    | succ n =>
      have hx := h x List.mem_cons_self
      rw [List.flatMap_cons, Nat.mul_succ, Nat.add_comm, ← hx, List.take_length_add_append, hx,
        ih fun y hy => h y (List.mem_cons_of_mem _ hy), List.take_succ_cons, List.flatMap_cons]

theorem drop_flatMap {k : Nat} (h : ∀ x ∈ xs, (f x).length = k) (n : Nat) :
    (xs.flatMap f).drop (k * n) = (xs.drop n).flatMap f := by
  have hsplit := List.take_append_drop (k * n) (xs.flatMap f)
  rw [take_flatMap h] at hsplit
  refine List.append_cancel_left (hsplit.trans ?_)
  rw [← List.flatMap_append, List.take_append_drop]

theorem size_encode (values : List Float) : (encode values).size = 8 * values.length :=
  length_flatMap fun x _ => length_encodeOne x

theorem take_encode (values : List Float) (n : Nat) :
    (values.flatMap encodeOne).take (8 * n) = (values.take n).flatMap encodeOne :=
  take_flatMap (fun x _ => length_encodeOne x) n

theorem drop_encode (values : List Float) (n : Nat) :
    (values.flatMap encodeOne).drop (8 * n) = (values.drop n).flatMap encodeOne :=
  drop_flatMap (fun x _ => length_encodeOne x) n

theorem encode_zeros (n : Nat) :
    (List.replicate n (0.0 : Float)).flatMap encodeOne = List.replicate (8 * n) 0 := by
  have hzero : encodeOne 0.0 = List.replicate 8 0 := by decide +kernel
  rw [List.flatMap_replicate, hzero, List.flatten_replicate_replicate, Nat.mul_comm]

theorem toList_extract (bytes : ByteArray) (i j : Nat) :
    (bytes.extract i j).data.toList = (bytes.data.toList.drop i).take (j - i) := by
  rw [ByteArray.data_extract, Array.toList_extract, List.extract_eq_take_drop]

/-- The bytes of a patched content: those before, zeros in a gap, the new ones, those behind. -/
theorem toList_patch {old bytes : ByteArray} {offset : Nat} (h : bytes.size ≠ 0) :
    (Disk.patch old offset bytes).data.toList =
      old.data.toList.take offset ++ List.replicate (offset - old.size) 0 ++ bytes.data.toList ++
        old.data.toList.drop (offset + bytes.size) := by
  have hold : old.data.toList.length = old.size := rfl
  have hbefore : old.data.toList.take (min offset old.size) = old.data.toList.take offset := by
    rw [← hold, List.take_eq_take_iff, Nat.min_assoc, Nat.min_self]
  have hbehind : (old.data.toList.drop (offset + bytes.size)).take
      (old.size - (offset + bytes.size)) = old.data.toList.drop (offset + bytes.size) :=
    List.take_of_length_le (by rw [List.length_drop, hold])
  rw [Disk.patch, if_neg h]
  simp only [ByteArray.data_append, Array.toList_append, toList_extract, List.drop_zero,
    Nat.sub_zero, hbefore, hbehind, Array.toList_replicate]

theorem setRecord_eq (series : List Float) (offset : Nat) (record : List Float) :
    setRecord series offset record =
      series.take offset ++ List.replicate (offset - series.length) 0.0 ++ record ++
        series.drop (offset + record.length) := by
  rw [setRecord, List.take_append, List.take_replicate, List.drop_append, List.drop_replicate,
    Nat.sub_self, List.replicate_zero, List.append_nil,
    Nat.min_eq_left (Nat.sub_le_sub_right (Nat.le_add_right _ _) _)]

/-- A record is written to the bytes of a series as it is set in the series. -/
theorem patch_encode (series : List Float) (offset : Nat) {record : List Float}
    (h : record ≠ []) :
    Disk.patch (encode series) (8 * offset) (encode record) =
      encode (setRecord series offset record) := by
  have hsize : (encode record).size ≠ 0 := by
    rw [size_encode]
    have := List.length_pos_iff.2 h
    omega
  apply ByteArray.ext
  apply Array.toList_inj.1
  rw [toList_patch hsize, size_encode, size_encode, toList_encode, toList_encode, toList_encode,
    setRecord_eq, take_encode, ← Nat.mul_add, drop_encode, ← Nat.mul_sub, ← encode_zeros]
  simp only [List.flatMap_append]

theorem decode_extract (series : List Float) (offset length : Nat) :
    decode ((encode series).extract (8 * offset) (8 * offset + 8 * length)) =
      (series.drop offset).take length := by
  rw [decode, toList_extract, toList_encode, drop_encode, Nat.add_sub_cancel_left, take_encode]
  exact decode_encode _

end Series

end ProcessModel
