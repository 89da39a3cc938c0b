import ShieldReduce.Lib.Bytes

/-!
# Gear sub-chunking

`rolling_gear_v3` and `chunk_gear` cut the base and the new chunk into short strings at
content-defined positions; the delta encoder looks the strings of one up among the other's.
-/

namespace ShieldReduce.EDelta
open Lib

def STRMIN : Nat := 12
def STRMAX : Nat := 64
def STRAVG : UInt32 := 28

/-- `GEAR[255]` has no initialiser in the source, so it is 0. -/
def GEAR : Array UInt32 := #[
  0x4b8fbc70, 0x95a75be0, 0x7fa97617, 0xdb51a0d, 0x7c71d5b3, 0x97842403, 0x87d60b89, 0x10c081cb,
  0x176c2faf, 0xc7392648, 0x2f15cf70, 0x842062ac, 0x7d19bc1b, 0xc9a22b6d, 0x29f65703, 0x54f0a470,
  0x4913c078, 0x91dd2661, 0xce401296, 0x1080796b, 0x3c6ba084, 0x291fd606, 0x1be96ae, 0x5e104df3,
  0x953a3946, 0xd59e7f77, 0x9f4734d9, 0xf095c27c, 0xe4448418, 0x47ca4676, 0xe9131404, 0xc6965ee3,
  0x2f46c05a, 0x8ba2c750, 0x5fb2fec6, 0xaae07db7, 0xf96ad818, 0xaed74a8d, 0x3b73296d, 0x42b47c83,
  0x3f14fa76, 0xe775583b, 0x8583a649, 0xe347effd, 0x1814ed33, 0xd747a499, 0x1241b4c, 0xc2ba1de6,
  0x9e459ecd, 0xf2cb801a, 0xb1575ba0, 0x57230ea3, 0xfd6e88ca, 0x1d0501a2, 0xf33ed508, 0x531f339c,
  0xece73621, 0x2171ee60, 0xc545563a, 0x3b68b071, 0x480657e4, 0x69b955c1, 0x954a24b1, 0xc458ee33,
  0x48958571, 0xccdd1652, 0xa67ad0f0, 0xa93e0890, 0x8255fe6, 0xc190ff58, 0x6d2966a, 0x1e3e1a20,
  0x1649fd23, 0xa5452efe, 0x247ce55, 0xf4220d84, 0xf817eb4b, 0xab0ff6bf, 0xd98c80da, 0xbb660cad,
  0xce39b4a0, 0xebfa6bfe, 0xc4baba1b, 0x5cfd0930, 0x7cdba262, 0xab2c4cdb, 0xdd1858e7, 0x7aa35c54,
  0x36c7793b, 0xc3298957, 0x5212e006, 0x772a10b3, 0x4b412801, 0x6348ea44, 0x90b7a8c, 0xf3903817,
  0x55ec8d5, 0xd39bca5e, 0xa19e4f8b, 0xf8472700, 0xd792025e, 0xcfdc83e0, 0x576880c7, 0xcbaa6558,
  0x692f5350, 0x1400ee49, 0x3a89aa8b, 0x46873d99, 0x63ecb853, 0x9860b122, 0x31685257, 0x32874e3d,
  0x6b44e063, 0x87525cd0, 0xf0a5025c, 0x6ccb4020, 0xf1d8849d, 0x414f66e7, 0x6afed5a4, 0x9a9befeb,
  0xd6e18fdc, 0x27129a4c, 0x7d6bcf28, 0x37fa944a, 0xe9b09b54, 0x9159093, 0x4a31242, 0x28d0d7d2,
  0x97e8d65a, 0xfcf68625, 0x1800702, 0x39dbe43f, 0x35da0210, 0xa6c68d9, 0x68500f4e, 0xc8a5ab6e,
  0x8b2b756a, 0xd5fb25bd, 0xb0c0405d, 0xc453b18c, 0xe2e66ea4, 0xda553370, 0x7dbc5759, 0x886eeab,
  0x9fafd0e5, 0x4e430b, 0x8331c2e5, 0x5a5d06b4, 0xe43f7b9d, 0xf3ec3644, 0x6a46d11, 0xcd41e503,
  0xa18a2e19, 0xadde1ea1, 0x36f7488e, 0x455255bd, 0x8075175e, 0x88d32d58, 0x9a0a25b0, 0x970e0c67,
  0x77b009e, 0x12d5bf75, 0xdc7fd18, 0xde77a2bb, 0x6ab176e0, 0xa6ab6c09, 0x6210efa8, 0xd947e049,
  0x5fb01605, 0xde4bd448, 0x5b2af7ba, 0xd2b49fe9, 0x1783f531, 0x66fffd39, 0x59e8a9ba, 0xc2ee818b,
  0x1f3b0f3c, 0x4cd0e620, 0xeaf278ba, 0x92045e3d, 0x64e6ebca, 0x9b70573, 0x3aaf57a4, 0xe287e26,
  0x54dcafbb, 0x8c25a8, 0x99642381, 0x5c8de9f0, 0x51fda6c0, 0x910e0b6d, 0xf6328e12, 0xec5e5389,
  0x8ed195f, 0xe80f0583, 0xa7185a25, 0xa83c3268, 0xa4e79433, 0xe6def4b, 0x77065b1f, 0x43678dc7,
  0x7e506399, 0x88503f60, 0x62c4983d, 0x70ece12, 0xe0d421a4, 0x71821295, 0x801310e8, 0x3bd7bf4b,
  0xe42779be, 0xefee3449, 0xd6aaaffc, 0xa5608bae, 0xf6e0b8ae, 0xdd79aa9f, 0x8bd6606d, 0x3b83977a,
  0x512a0c70, 0x2c6de88, 0x25f5ea97, 0x68ceb140, 0xdaa87097, 0x602b8497, 0x7767467a, 0xfee216a8,
  0x14512325, 0x142c4e04, 0x7bf5ac09, 0x384364d5, 0xf58188a8, 0xa410598, 0x799223f, 0xc1b76b42,
  0xd828d74b, 0x931ecbb1, 0x41922ad3, 0x787fb489, 0xf41c1d00, 0x3dbc3f88, 0x12a70e39, 0x26ae363d,
  0x47f7274, 0x86385074, 0x2ffb7263, 0xb8e3de33, 0x9496a61, 0x92025809, 0xbf8b296d, 0xf1a57003,
  0xa8057fb6, 0x2ce2e565, 0x56d7a64a, 0xa6e30007, 0xe0562996, 0xabec18bd, 0x6b8c68ed]

/-- `fingerprint = (fingerprint << 1) + GEAR[p[i]]` -/
def gearStep (fingerprint : UInt32) (b : UInt8) : UInt32 :=
  (fingerprint <<< 1) + GEAR.getD b.toNat 0

/-- `!(fingerprint & STRAVG)` -/
def gearCut (fingerprint : UInt32) : Bool := fingerprint &&& STRAVG == 0

/-- The loop of `chunk_gear` at position `i`. -/
def chunkGearLoop (p : Bytes) (n : Nat) : Nat → Nat → UInt32 → Nat
  | 0, i, _ => i
  | fuel + 1, i, fingerprint =>
    if i ≤ n then
      let fingerprint := gearStep fingerprint (p.getD i 0)
      if i ≤ STRMAX then
        if gearCut fingerprint then i else chunkGearLoop p n fuel (i + 1) fingerprint
      else i
    else i

/-- The length of the next string of `p`, of which `n` bytes are left. -/
def chunkGear (p : Bytes) (n : Nat) : Nat :=
  if n ≤ STRMAX then n else chunkGearLoop p n n (STRMIN + 1) 0

theorem chunkGearLoop_bounds {p : Bytes} {n fuel i : Nat} {fingerprint : UInt32}
    (hn : STRMAX < n) (hi : i ≤ STRMAX + 1) (hfuel : STRMAX + 1 < fuel + i) :
    i ≤ chunkGearLoop p n fuel i fingerprint ∧ chunkGearLoop p n fuel i fingerprint ≤ STRMAX + 1 := by
  induction fuel generalizing i fingerprint with
  | zero => omega
  | succ fuel ih =>
    unfold chunkGearLoop
    rw [if_pos (by omega : i ≤ n)]
    by_cases hs : i ≤ STRMAX
    · simp only [if_pos hs]
      split
      · exact ⟨Nat.le_refl i, hi⟩
      · have h := @ih (i + 1) (gearStep fingerprint (p.getD i 0)) (by omega) (by omega)
        exact ⟨by omega, h.2⟩
    · simp only [if_neg hs]
      exact ⟨Nat.le_refl i, hi⟩

theorem chunkGear_le (p : Bytes) (n : Nat) : chunkGear p n ≤ n := by
  unfold chunkGear
  split
  · exact Nat.le_refl n
  · rename_i h
    have hb := @chunkGearLoop_bounds p n n (STRMIN + 1) 0 (by omega) (by decide)
      (by simp only [STRMIN, STRMAX] at *; omega)
    omega

/-- Every string of a nonempty input is nonempty, so chunking advances. -/
theorem chunkGear_pos {p : Bytes} {n : Nat} (h : 0 < n) : 0 < chunkGear p n := by
  unfold chunkGear
  split
  · exact h
  · rename_i hn
    have hb := @chunkGearLoop_bounds p n n (STRMIN + 1) 0 (by omega) (by decide)
      (by simp only [STRMIN, STRMAX] at *; omega)
    simp only [STRMIN] at hb
    simp only [STRMIN]
    omega

/-- The loop of `rolling_gear_v3`: the cut points after `last`, `left` of them to go. Once the
input is exhausted every remaining cut is `n`. -/
def rollingGearLoop (p : Bytes) (n : Nat) : Nat → Nat → Nat → Nat → UInt32 → List Nat
  | 0, left, _, _, _ => List.replicate left n
  | _ + 1, 0, _, _, _ => []
  | fuel + 1, left + 1, i, last, fingerprint =>
    if i < n then
      let fingerprint := gearStep fingerprint (p.getD i 0)
      if i ≤ last + STRMAX then
        if gearCut fingerprint then
          i :: rollingGearLoop p n fuel left (i + STRMIN + 1) i 0
        else rollingGearLoop p n fuel (left + 1) (i + 1) last fingerprint
      else i :: rollingGearLoop p n fuel left (i + STRMIN + 1) i 0
    else List.replicate (left + 1) n

/-- The array `cut` that `rolling_gear_v3` fills: `cut[0] = 0` and `num_of_chunks` cuts. -/
def rollingGearV3 (p : Bytes) (n numOfChunks : Nat) : List Nat :=
  0 :: rollingGearLoop p n n numOfChunks (STRMIN + 1) 0 0

/-- Successive cuts from `last` on: they never go back and never pass `n`. -/
def CutsFrom (n last : Nat) : List Nat → Prop
  | [] => True
  | c :: cs => last ≤ c ∧ c ≤ n ∧ CutsFrom n c cs

theorem cutsFrom_replicate {n last : Nat} (h : last ≤ n) (k : Nat) :
    CutsFrom n last (List.replicate k n) := by
  induction k generalizing last with
  | zero => trivial
  | succ k ih => exact ⟨h, Nat.le_refl n, ih (Nat.le_refl n)⟩

theorem rollingGearLoop_cuts {p : Bytes} {n fuel left i last : Nat} {fingerprint : UInt32}
    (hlast : last ≤ n) (hi : last ≤ i) :
    CutsFrom n last (rollingGearLoop p n fuel left i last fingerprint) := by
  induction fuel generalizing left i last fingerprint with
  | zero => exact cutsFrom_replicate hlast left
  | succ fuel ih =>
    cases left with
    | zero => trivial
    | succ left =>
      unfold rollingGearLoop
      by_cases hn : i < n
      · have hcut : CutsFrom n last (i :: rollingGearLoop p n fuel left (i + STRMIN + 1) i 0) :=
          ⟨hi, by omega, ih (by omega) (by omega)⟩
        rw [if_pos hn]
        dsimp only
        split
        · split
          · exact hcut
          · exact ih hlast (by omega)
        · exact hcut
      · rw [if_neg hn]
        exact cutsFrom_replicate hlast (left + 1)

theorem rollingGearV3_cuts (p : Bytes) (n numOfChunks : Nat) :
    CutsFrom n 0 (rollingGearV3 p n numOfChunks) :=
  ⟨Nat.le_refl 0, Nat.zero_le n, rollingGearLoop_cuts (Nat.zero_le n) (by omega)⟩

theorem rollingGearLoop_length (p : Bytes) (n fuel left i last : Nat) (fingerprint : UInt32) :
    (rollingGearLoop p n fuel left i last fingerprint).length = left := by
  induction fuel generalizing left i last fingerprint with
  | zero => exact List.length_replicate
  | succ fuel ih =>
    cases left with
    | zero => rfl
    | succ left =>
      unfold rollingGearLoop
      have hcut : (i :: rollingGearLoop p n fuel left (i + STRMIN + 1) i 0).length = left + 1 := by
        rw [List.length_cons, ih]
      split
      · dsimp only
        split
        · split
          · exact hcut
          · exact ih _ _ _ _
        · exact hcut
      · exact List.length_replicate

/-- `cut` holds one entry more than there are strings. -/
theorem rollingGearV3_length (p : Bytes) (n numOfChunks : Nat) :
    (rollingGearV3 p n numOfChunks).length = numOfChunks + 1 := by
  unfold rollingGearV3
  rw [List.length_cons, rollingGearLoop_length]

/-- Cuts that all leave a nonempty string. -/
def Advancing (last : Nat) : List Nat → Prop
  | [] => True
  | c :: cs => last < c ∧ Advancing c cs

/-- Cuts that all advance are `STRMIN + 1` apart, but for a last one at the end of the input. -/
def Spaced (n last left : Nat) (cs : List Nat) : Prop :=
  13 * left + last ≤ cs.getLastD last + 12 ∧
    (cs.getLastD last < n → 13 * left + last ≤ cs.getLastD last)

theorem replicate_spaced {n last left : Nat} (h : Advancing last (List.replicate left n)) :
    Spaced n last left (List.replicate left n) := by
  unfold Spaced
  cases left with
  | zero =>
    change 13 * 0 + last ≤ last + 12 ∧ (last < n → 13 * 0 + last ≤ last)
    omega
  | succ left =>
    cases left with
    | zero =>
      have hlt : last < n := h.1
      change 13 * 1 + last ≤ n + 12 ∧ (n < n → 13 * 1 + last ≤ n)
      omega
    | succ left => exact absurd h.2.1 (Nat.lt_irrefl n)

theorem rollingGearLoop_spaced {p : Bytes} {n fuel left i last : Nat} {fingerprint : UInt32}
    (hi : last + STRMIN + 1 ≤ i)
    (h : Advancing last (rollingGearLoop p n fuel left i last fingerprint)) :
    Spaced n last left (rollingGearLoop p n fuel left i last fingerprint) := by
  induction fuel generalizing left i last fingerprint with
  | zero => exact replicate_spaced h
  | succ fuel ih =>
    cases left with
    | zero => exact @replicate_spaced n last 0 trivial
    | succ left =>
      have hcut : Advancing last (i :: rollingGearLoop p n fuel left (i + STRMIN + 1) i 0) →
          Spaced n last (left + 1) (i :: rollingGearLoop p n fuel left (i + STRMIN + 1) i 0) := by
        intro hadv
        obtain ⟨h1, h2⟩ := ih (Nat.le_refl _) hadv.2
        unfold STRMIN at hi
        unfold Spaced
        rw [List.getLastD_cons]
        exact ⟨by omega, fun hlt => by have := h2 hlt; omega⟩
      unfold rollingGearLoop at h ⊢
      by_cases hn : i < n
      · rw [if_pos hn] at h ⊢
        dsimp only at h ⊢
        by_cases hmax : i ≤ last + STRMAX
        · rw [if_pos hmax] at h ⊢
          by_cases hfp : gearCut (gearStep fingerprint (p.getD i 0)) = true
          · rw [if_pos hfp] at h ⊢
            exact hcut h
          · rw [if_neg hfp] at h ⊢
            exact ih (Nat.le_succ_of_le hi) h
        · rw [if_neg hmax] at h ⊢
          exact hcut h
      · rw [if_neg hn] at h ⊢
        exact replicate_spaced h

end ShieldReduce.EDelta
