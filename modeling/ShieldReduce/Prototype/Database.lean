import ShieldReduce.Lib.Stream
import ShieldReduce.Prototype.State

/-!
# The database across restarts

`InMemoryDatabase::~InMemoryDatabase` writes the FP index and the super-feature index to two files,
`InMemoryDatabase::OpenDB` reads them into a new database.
-/

namespace ShieldReduce.Prototype
open Lib Store

/-- The maps of `AbsDatabase` and `InMemoryDatabase` that uploads and passes leave to each other. -/
structure Database where
  indexObj : Table Fp RecipeEntry
  sfObj : Fin 3 → Table Fp (List Fp)
  delta_index : Table Fp (List Fp)
  local_tmp_map : Table Fp Fp
  skipMap : Table Fp (List Fp)
  local_map : List (Fp × Fp)

def Server.database (s : Server) : Database :=
  ⟨s.indexObj, s.sfObj, s.delta_index, s.local_tmp_map, s.skipMap, s.local_map⟩

/-- Two databases answer every query alike. -/
structure Database.Same (d d' : Database) : Prop where
  indexObj : ∀ fp, d'.indexObj.lookup fp = d.indexObj.lookup fp
  sfObj : ∀ i key, (d'.sfObj i).lookup key = (d.sfObj i).lookup key
  delta_index : ∀ fp, d'.delta_index.lookup fp = d.delta_index.lookup fp
  local_tmp_map : ∀ fp, d'.local_tmp_map.lookup fp = d.local_tmp_map.lookup fp
  skipMap : ∀ fp, d'.skipMap.lookup fp = d.skipMap.lookup fp
  local_map : d'.local_map = d.local_map

/-- The order in which the destructor's loops come to the pairs of the hash maps. -/
structure DumpOrder where
  indexObj : List (Fp × RecipeEntry)
  sfObj : Fin 3 → List (Fp × List Fp)

structure DumpOrder.Of (o : DumpOrder) (d : Database) : Prop where
  indexObj : o.indexObj.Perm (Table.pairs d.indexObj)
  sfObj : ∀ i, (o.sfObj i).Perm (Table.pairs (d.sfObj i))

section Write

def dumpIndex (items : List (Fp × RecipeEntry)) : Bytes :=
  items.flatMap fun p => writeString p.1.val ++ writeString p.2.toBytes

/-- The postings in the order they are written: version, key and fingerprint. -/
def sfItems (sfObj : Fin 3 → List (Fp × List Fp)) : List (Fin 3 × Fp × Fp) :=
  (List.finRange 3).flatMap fun i =>
    (sfObj i).flatMap fun p => p.2.map fun chunkHash => (i, p.1, chunkHash)

def dumpSf (items : List (Fin 3 × Fp × Fp)) : Bytes :=
  items.flatMap fun p =>
    le32 (UInt32.ofNat p.1.val) ++ (writeString p.2.1.val ++ writeString p.2.2.val)

/-- `dbFile` and `sfdbFile` after the destructor. -/
def closeDB (o : DumpOrder) : Bytes × Bytes := (dumpIndex o.indexObj, dumpSf (sfItems o.sfObj))

end Write

section Read

/-- The loop over `dbFile`: the pairs it inserts. Every round reads at least the length of a key,
so as many rounds as the file has bytes suffice. -/
def readIndex : Nat → InFile → Bytes → Bytes → List (Bytes × Bytes)
  | 0, _, _, _ => []
  | fuel + 1, dbFile, key, value =>
    let (itemSize, dbFile) := dbFile.readInt 0
    if itemSize = 0 then []
    else
      let (key, dbFile) := dbFile.readItem key itemSize
      let (itemSize, dbFile) := dbFile.readInt itemSize
      let (value, dbFile) := dbFile.readItem value itemSize
      (key, value) :: (if dbFile.eof then [] else readIndex fuel dbFile key value)

/-- The loop over `sfdbFile`. -/
def readSf : Nat → InFile → UInt32 → Bytes → Bytes → List (UInt32 × Bytes × Bytes)
  | 0, _, _, _, _ => []
  | fuel + 1, sfdbFile, sf_version, key, value =>
    let (sf_version, sfdbFile) := sfdbFile.readInt sf_version
    let (itemSize, sfdbFile) := sfdbFile.readInt 0
    if itemSize = 0 then []
    else
      let (key, sfdbFile) := sfdbFile.readItem key itemSize
      let (itemSize, sfdbFile) := sfdbFile.readInt itemSize
      let (value, sfdbFile) := sfdbFile.readItem value itemSize
      (sf_version, key, value) ::
        (if sfdbFile.eof then [] else readSf fuel sfdbFile sf_version key value)

def insertIndexItem (index : Table Fp RecipeEntry) (p : Bytes × Bytes) : Table Fp RecipeEntry :=
  Table.insertNew index (FixedBytes.read 32 p.1 0) (RecipeEntry.read p.2 0)

/-- There are three super-feature indexes. -/
def pushSfItem (sfObj : Fin 3 → Table Fp (List Fp)) (p : UInt32 × Bytes × Bytes) :
    Fin 3 → Table Fp (List Fp) := fun i =>
  if p.1.toNat = i.val then
    Table.push (sfObj i) (FixedBytes.read 32 p.2.1 0) (FixedBytes.read 32 p.2.2 0)
  else sfObj i

/-- `OpenDB` of a new database. A file that is not there counts as empty. -/
def OpenDB (files : Bytes × Bytes) : Database where
  indexObj := (readIndex (files.1.length + 1) ⟨files.1, false⟩ [] []).foldl insertIndexItem ∅
  sfObj := (readSf (files.2.length + 1) ⟨files.2, false⟩ 0 [] []).foldl pushSfItem fun _ => ∅
  delta_index := ∅
  local_tmp_map := ∅
  skipMap := ∅
  local_map := []

end Read

section RoundTrip

theorem fp_read (x : Fp) : FixedBytes.read 32 x.val 0 = x := by
  apply FixedBytes.read_of_slice
  rw [slice_zero_eq_take, List.take_of_length_le (Nat.le_of_eq x.property)]

theorem entry_read (e : RecipeEntry) : RecipeEntry.read e.toBytes 0 = e := by
  apply RecipeEntry.read_of_slice
  rw [slice_zero_eq_take, List.take_of_length_le (Nat.le_of_eq e.toBytes_length)]

/-- The loop over `dbFile` gets the pairs that were written. -/
theorem readIndex_dumpIndex {items : List (Fp × RecipeEntry)} {fuel : Nat}
    (hfuel : items.length < fuel) (key value : Bytes) :
    readIndex fuel ⟨dumpIndex items, false⟩ key value =
      items.map fun p => (p.1.val, p.2.toBytes) := by
  induction items generalizing fuel key value with
  | nil =>
    obtain ⟨fuel, rfl⟩ := Nat.exists_eq_succ_of_ne_zero (Nat.ne_of_gt hfuel)
    have hend := InFile.readInt_end 0
    unfold readIndex dumpIndex
    rw [List.flatMap_nil, hend]
    simp
  | cons p items ih =>
    obtain ⟨fuel, rfl⟩ := Nat.exists_eq_succ_of_ne_zero (Nat.ne_of_gt (Nat.zero_lt_of_lt hfuel))
    have hkey : p.1.val.length = 32 := p.1.property
    have hvalue : p.2.toBytes.length = 144 := p.2.toBytes_length
    have hfile : dumpIndex (p :: items) = le32 (UInt32.ofNat p.1.val.length) ++ (p.1.val ++
        (le32 (UInt32.ofNat p.2.toBytes.length) ++ (p.2.toBytes ++ dumpIndex items))) := by
      unfold dumpIndex writeString
      rw [List.flatMap_cons]
      simp only [List.append_assoc]
    have hne : UInt32.ofNat p.1.val.length ≠ 0 := by
      rw [hkey]
      decide
    have hitem := @InFile.readItem_append p.1.val (by omega)
    have hitem' := @InFile.readItem_append p.2.toBytes (by omega)
    rw [hfile, readIndex, InFile.readInt_append]
    dsimp only
    rw [if_neg hne, hitem]
    dsimp only
    rw [InFile.readInt_append]
    dsimp only
    rw [hitem']
    dsimp only
    rw [if_neg Bool.false_ne_true, ih (by simpa using hfuel), List.map_cons]

theorem readSf_succ {fuel : Nat} {f f₁ f₂ f₃ f₄ f₅ : InFile} {v v' n m : UInt32}
    {key key' value value' : Bytes} (hversion : f.readInt v = (v', f₁))
    (hsize : f₁.readInt 0 = (n, f₂)) (hn : n ≠ 0) (hkey : f₂.readItem key n = (key', f₃))
    (hsize' : f₃.readInt n = (m, f₄)) (hvalue : f₄.readItem value m = (value', f₅)) :
    readSf (fuel + 1) f v key value =
      (v', key', value') :: if f₅.eof then [] else readSf fuel f₅ v' key' value' := by
  simp only [readSf, hversion, hsize, hkey, hsize', hvalue, if_neg hn]

/-- The loop over `sfdbFile` gets the postings that were written. -/
theorem readSf_dumpSf {items : List (Fin 3 × Fp × Fp)} {fuel : Nat}
    (hfuel : items.length < fuel) (sf_version : UInt32) (key value : Bytes) :
    readSf fuel ⟨dumpSf items, false⟩ sf_version key value =
      items.map fun p => (UInt32.ofNat p.1.val, p.2.1.val, p.2.2.val) := by
  induction items generalizing fuel sf_version key value with
  | nil =>
    obtain ⟨fuel, rfl⟩ := Nat.exists_eq_succ_of_ne_zero (Nat.ne_of_gt hfuel)
    have hend := InFile.readInt_end sf_version
    have heof := InFile.readInt_eof [] 0
    unfold readSf dumpSf
    rw [List.flatMap_nil, hend]
    dsimp only
    rw [heof]
    simp
  | cons p items ih =>
    obtain ⟨fuel, rfl⟩ := Nat.exists_eq_succ_of_ne_zero (Nat.ne_of_gt (Nat.zero_lt_of_lt hfuel))
    have hkey : p.2.1.val.length = 32 := p.2.1.property
    have hvalue : p.2.2.val.length = 32 := p.2.2.property
    have hfile : dumpSf (p :: items) = le32 (UInt32.ofNat p.1.val) ++
        (le32 (UInt32.ofNat p.2.1.val.length) ++ (p.2.1.val ++
          (le32 (UInt32.ofNat p.2.2.val.length) ++ (p.2.2.val ++ dumpSf items)))) := by
      unfold dumpSf writeString
      rw [List.flatMap_cons]
      simp only [List.append_assoc]
    have hne : UInt32.ofNat p.2.1.val.length ≠ 0 := by
      rw [hkey]
      decide
    have hkey' : p.2.1.val.length < 2 ^ 32 := by omega
    have hvalue' : p.2.2.val.length < 2 ^ 32 := by omega
    have hstep := @readSf_succ fuel _ _ _ _ _ _ _ _ _ _ key _ value _
      (InFile.readInt_append (UInt32.ofNat p.1.val) sf_version _) (InFile.readInt_append _ 0 _) hne
      (InFile.readItem_append hkey' key _) (InFile.readInt_append _ _ _)
      (InFile.readItem_append hvalue' value (dumpSf items))
    rw [hfile, hstep, if_neg Bool.false_ne_true, ih (by simpa using hfuel), List.map_cons]

theorem dumpIndex_length (items : List (Fp × RecipeEntry)) :
    items.length ≤ (dumpIndex items).length := by
  induction items with
  | nil => exact Nat.zero_le _
  | cons p items ih =>
    unfold dumpIndex at ih ⊢
    rw [List.flatMap_cons, List.length_append, List.length_cons]
    have hhead : 1 ≤ (writeString p.1.val ++ writeString p.2.toBytes).length := by
      unfold writeString
      simp only [List.length_append, le32_length]
      omega
    omega

theorem dumpSf_length (items : List (Fin 3 × Fp × Fp)) :
    items.length ≤ (dumpSf items).length := by
  induction items with
  | nil => exact Nat.zero_le _
  | cons p items ih =>
    unfold dumpSf at ih ⊢
    rw [List.flatMap_cons, List.length_append, List.length_cons]
    simp only [List.length_append, le32_length]
    omega

variable {d : Database} {o : DumpOrder}

/-- The FP index survives. -/
theorem OpenDB_indexObj (ho : o.Of d) (fp : Fp) :
    (OpenDB (closeDB o)).indexObj.lookup fp = d.indexObj.lookup fp := by
  have hread := readIndex_dumpIndex (Nat.lt_succ_of_le (dumpIndex_length o.indexObj)) [] []
  have hfold : (OpenDB (closeDB o)).indexObj =
      o.indexObj.foldl (fun t p => Table.insertNew t p.1 p.2) ∅ := by
    unfold OpenDB closeDB
    dsimp only
    rw [hread, List.foldl_map]
    unfold insertIndexItem
    simp only [fp_read, entry_read]
  have hnodup : (o.indexObj.map Prod.fst).Nodup :=
    (ho.indexObj.map Prod.fst).nodup_iff.mpr (Table.pairs_nodup d.indexObj)
  have hlook := fun v => @Table.lookup_foldl_insertNew Fp RecipeEntry _ o.indexObj ∅ hnodup
    (fun _ _ => AList.lookup_empty _) fp v
  apply Option.ext
  intro v
  rw [hfold, hlook v, ho.indexObj.mem_iff, Table.mem_pairs, AList.lookup_empty]
  simp

/-- The postings of one key among those of a table. -/
theorem filter_postings {order : List (Fp × List Fp)} (hnodup : (order.map Prod.fst).Nodup)
    {key : Fp} {postings : List Fp} (hmem : (key, postings) ∈ order) :
    ((order.flatMap fun p => p.2.map fun chunkHash => (p.1, chunkHash)).filter
      fun p => p.1 = key) = postings.map fun chunkHash => (key, chunkHash) := by
  induction order with
  | nil => simp at hmem
  | cons p order ih =>
    obtain ⟨hp, hnodup⟩ := List.nodup_cons.mp hnodup
    rw [List.flatMap_cons, List.filter_append]
    rcases List.mem_cons.mp hmem with rfl | hmem
    · have hhead : ((key, postings).2.map fun chunkHash => ((key, postings).1, chunkHash)).filter
          (fun p => p.1 = key) = postings.map fun chunkHash => (key, chunkHash) := by
        rw [List.filter_eq_self]
        intro q hq
        obtain ⟨_, _, rfl⟩ := List.mem_map.mp hq
        simp
      have hrest : (order.flatMap fun p => p.2.map fun chunkHash => (p.1, chunkHash)).filter
          (fun p => p.1 = key) = [] := by
        rw [List.filter_eq_nil_iff]
        intro q hq
        obtain ⟨p', hp', hq⟩ := List.mem_flatMap.mp hq
        obtain ⟨_, _, rfl⟩ := List.mem_map.mp hq
        simp only [decide_eq_true_eq]
        intro heq
        exact hp (List.mem_map.mpr ⟨p', hp', heq⟩)
      rw [hhead, hrest, List.append_nil]
    · have hne : p.1 ≠ key := by
        intro heq
        exact hp (List.mem_map.mpr ⟨_, hmem, heq.symm⟩)
      have hhead : (p.2.map fun chunkHash => (p.1, chunkHash)).filter (fun p => p.1 = key) = [] := by
        rw [List.filter_eq_nil_iff]
        intro q hq
        obtain ⟨_, _, rfl⟩ := List.mem_map.mp hq
        simpa using hne
      rw [hhead, List.nil_append, ih hnodup hmem]

theorem foldl_pushSfItem (items : List (Fin 3 × Fp × Fp)) (sfObj : Fin 3 → Table Fp (List Fp))
    (i : Fin 3) :
    (items.map fun p => (UInt32.ofNat p.1.val, p.2.1.val, p.2.2.val)).foldl pushSfItem sfObj i =
      ((items.filter fun p => p.1 = i).map Prod.snd).foldl (fun t p => Table.push t p.1 p.2)
        (sfObj i) := by
  induction items generalizing sfObj with
  | nil => rfl
  | cons p items ih =>
    have hversion : (UInt32.ofNat p.1.val).toNat = p.1.val := by
      rw [UInt32.toNat_ofNat', Nat.mod_eq_of_lt (by omega)]
    rw [List.map_cons, List.foldl_cons, ih]
    unfold pushSfItem
    dsimp only
    rw [hversion, fp_read, fp_read]
    by_cases hi : p.1 = i
    · rw [if_pos (congrArg Fin.val hi), List.filter_cons_of_pos (by simpa using hi)]
      rfl
    · rw [if_neg fun h => hi (Fin.ext h), List.filter_cons_of_neg (by simpa using hi)]

/-- The postings of one of the three indexes. -/
theorem filter_sfItems (sfObj : Fin 3 → List (Fp × List Fp)) (i : Fin 3) :
    ((sfItems sfObj).filter fun p => p.1 = i).map Prod.snd =
      (sfObj i).flatMap fun p => p.2.map fun chunkHash => (p.1, chunkHash) := by
  have hpart : ∀ j, (((sfObj j).flatMap fun p => p.2.map fun chunkHash => (j, p.1, chunkHash)).filter
      fun p => p.1 = i) = if j = i then
        (sfObj j).flatMap fun p => p.2.map fun chunkHash => (j, p.1, chunkHash) else [] := by
    intro j
    by_cases hj : j = i
    · rw [if_pos hj, List.filter_eq_self]
      intro q hq
      obtain ⟨p, _, hq⟩ := List.mem_flatMap.mp hq
      obtain ⟨_, _, rfl⟩ := List.mem_map.mp hq
      simpa using hj
    · rw [if_neg hj, List.filter_eq_nil_iff]
      intro q hq
      obtain ⟨p, _, hq⟩ := List.mem_flatMap.mp hq
      obtain ⟨_, _, rfl⟩ := List.mem_map.mp hq
      simpa using hj
  unfold sfItems
  rw [List.filter_flatMap]
  simp only [hpart]
  have hself : (List.finRange 3).flatMap (fun j => if j = i then
      (sfObj j).flatMap fun p => p.2.map fun chunkHash => (j, p.1, chunkHash) else []) =
        (sfObj i).flatMap fun p => p.2.map fun chunkHash => (i, p.1, chunkHash) := by
    match i with
    | 0 => simp [List.finRange_succ]
    | 1 => simp [List.finRange_succ]
    | 2 => simp [List.finRange_succ]
  rw [hself, List.map_flatMap]
  simp only [List.map_map]
  rfl

/-- A super-feature index without empty posting lists survives. -/
theorem OpenDB_sfObj (ho : o.Of d) (i : Fin 3)
    (hpostings : ∀ key postings, (d.sfObj i).lookup key = some postings → postings ≠ [])
    (key : Fp) : ((OpenDB (closeDB o)).sfObj i).lookup key = (d.sfObj i).lookup key := by
  have hread := readSf_dumpSf (Nat.lt_succ_of_le (dumpSf_length (sfItems o.sfObj))) 0 [] []
  have hfold : (OpenDB (closeDB o)).sfObj i =
      ((o.sfObj i).flatMap fun p => p.2.map fun chunkHash => (p.1, chunkHash)).foldl
        (fun t p => Table.push t p.1 p.2) ∅ := by
    unfold OpenDB closeDB
    dsimp only
    rw [hread, foldl_pushSfItem, filter_sfItems]
  have hnodup : ((o.sfObj i).map Prod.fst).Nodup :=
    ((ho.sfObj i).map Prod.fst).nodup_iff.mpr (Table.pairs_nodup (d.sfObj i))
  rw [hfold, Table.lookup_foldl_push]
  cases hkey : (d.sfObj i).lookup key with
  | some postings =>
    have hmem : (key, postings) ∈ o.sfObj i := (ho.sfObj i).mem_iff.mpr (Table.mem_pairs.mpr hkey)
    rw [filter_postings hnodup hmem, if_neg (by simpa using hpostings key postings hkey),
      List.map_map]
    have hvec : Table.vec (∅ : Table Fp (List Fp)) key = [] := rfl
    rw [hvec, List.nil_append]
    simp
  | none =>
    have hnone : (((o.sfObj i).flatMap fun p => p.2.map fun chunkHash => (p.1, chunkHash)).filter
        fun p => p.1 = key) = [] := by
      rw [List.filter_eq_nil_iff]
      intro q hq
      obtain ⟨p, hp, hq⟩ := List.mem_flatMap.mp hq
      obtain ⟨_, _, rfl⟩ := List.mem_map.mp hq
      simp only [decide_eq_true_eq]
      intro heq
      have hlook := Table.mem_pairs.mp ((ho.sfObj i).mem_iff.mp hp)
      rw [heq, hkey] at hlook
      simp at hlook
    rw [if_pos hnone, AList.lookup_empty]

/-- Nothing but the two indexes survives. -/
theorem OpenDB_same (ho : o.Of d)
    (hpostings : ∀ i key postings, (d.sfObj i).lookup key = some postings → postings ≠ []) :
    Database.Same d (OpenDB (closeDB o)) ↔ (∀ fp, d.delta_index.lookup fp = none) ∧
      (∀ fp, d.local_tmp_map.lookup fp = none) ∧ (∀ fp, d.skipMap.lookup fp = none) ∧
        d.local_map = [] := by
  have hempty : ∀ (V : Type) (fp : Fp), (∅ : Table Fp V).lookup fp = none :=
    fun _ _ => AList.lookup_empty _
  constructor
  · intro h
    exact ⟨fun fp => (h.delta_index fp).symm.trans (hempty _ fp),
      fun fp => (h.local_tmp_map fp).symm.trans (hempty _ fp),
      fun fp => (h.skipMap fp).symm.trans (hempty _ fp), h.local_map.symm⟩
  · rintro ⟨hdelta, htmp, hskip, hlocal⟩
    exact ⟨OpenDB_indexObj ho, fun i => OpenDB_sfObj ho i (hpostings i),
      fun fp => (hempty _ fp).trans (hdelta fp).symm, fun fp => (hempty _ fp).trans (htmp fp).symm,
      fun fp => (hempty _ fp).trans (hskip fp).symm, hlocal.symm⟩

end RoundTrip

end ShieldReduce.Prototype
