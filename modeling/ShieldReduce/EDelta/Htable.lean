import Mathlib.Data.List.Perm.Basic
import Mathlib.Data.List.Flatten
import Mathlib.Data.List.Induction
import Mathlib.Logic.Function.Basic
import ShieldReduce.EDelta.Encode

/-!
# The table of base strings

A chained hash table that doubles. `grow_table` pushes the items of a chain, front to back, to the
front of their new chains: what has been newest first is oldest first after it. `Turned` says what
that comes to for a look-up.
-/

namespace ShieldReduce.EDelta

section Model

/-- A chain is the list of its items; the links are part of them. -/
structure Htable (α : Type) where
  table : Nat → List (UInt64 × α)
  mask : Nat
  num_items : Nat
  buckets : Nat
  max_items : Nat

namespace Htable
variable {α : Type}

/-- `for (pwr=0; tsize; pwr++) tsize >>= 1;` -/
def pwrLoop : Nat → Nat → Nat → Nat
  | 0, _, pwr => pwr
  | fuel + 1, tsize, pwr => if tsize = 0 then pwr else pwrLoop fuel (tsize / 2) (pwr + 1)

def init (tsize : Nat) : Htable α :=
  let tsize := tsize / 4
  let pwr := pwrLoop tsize tsize 0
  let buckets := 2 ^ pwr
  { table := fun _ => []
    mask := buckets - 1
    num_items := 0
    buckets := buckets
    max_items := buckets * 4 }

def hashIndex (mask : Nat) (key : UInt64) : Nat := (key * 2654435761).toNat &&& mask

/-- `insert` up to the question whether the table is full. -/
def link (e : UInt64 × α) (t : Htable α) : Htable α :=
  let index := hashIndex t.mask e.1
  { t with
    table := Function.update t.table index (e :: t.table index)
    num_items := t.num_items + 1 }

/-- `while (!walkptr && walk_index < buckets) walkptr = table[walk_index++];` -/
def nextChain (t : Htable α) : Nat → List (UInt64 × α) → Nat → List (UInt64 × α) × Nat
  | 0, walkptr, walk_index => (walkptr, walk_index)
  | fuel + 1, walkptr, walk_index =>
    if walkptr.isEmpty ∧ walk_index < t.buckets then
      nextChain t fuel (t.table walk_index) (walk_index + 1)
    else (walkptr, walk_index)

def first (t : Htable α) : List (UInt64 × α) × Nat := nextChain t t.buckets (t.table 0) 1

/-- The loop of `grow_table` over the items of `t`; `big` is larger than what goes into it. -/
def growLoop (t : Htable α) :
    Nat → List (UInt64 × α) × Nat → Htable α → Htable α
  | fuel + 1, (item :: ni, walk_index), big =>
    let big := big.link item
    if ni.isEmpty then growLoop t fuel (nextChain t t.buckets [] walk_index) big
    else growLoop t fuel (ni, walk_index) big
  | _, _, big => big

def grow_table (t : Htable α) : Htable α :=
  let big : Htable α :=
    { table := fun _ => []
      mask := t.mask * 2 + 1
      num_items := 0
      buckets := t.buckets * 2
      max_items := t.buckets * 2 * 4 }
  growLoop t t.num_items t.first big

def insert (e : UInt64 × α) (t : Htable α) : Htable α :=
  let t := t.link e
  if t.max_items ≤ t.num_items then t.grow_table else t

def ResetTable (t : Htable α) : Htable α := { t with table := fun _ => [], num_items := 0 }

def lookup (key : UInt64) (t : Htable α) : Option α :=
  ((t.table (hashIndex t.mask key)).find? (fun e => e.1 == key)).map Prod.snd

def insertAll (items : List (UInt64 × α)) (t : Htable α) : Htable α :=
  items.foldl (fun t e => t.insert e) t

/-- The table of a client after the strings of one encoding after the other. `EDeltaEncode` empties
it at its start, so it keeps the buckets that it has grown. -/
def encodings (tsize : Nat) (earlier : List (List (UInt64 × α))) : Htable α :=
  earlier.foldl (fun t items => t.ResetTable.insertAll items) (init tsize)

end Htable
end Model

/-- What the table comes to: its items in the order a look-up meets those of one key. -/
structure Turned (α : Type) where
  buckets : Nat
  entries : List (UInt64 × α)

namespace Turned
variable {α : Type}

/-- At each doubling the order turns around. -/
def insert (e : UInt64 × α) (s : Turned α) : Turned α :=
  if 4 * s.buckets ≤ s.entries.length + 1 then ⟨2 * s.buckets, (e :: s.entries).reverse⟩
  else ⟨s.buckets, e :: s.entries⟩

def insertAll (items : List (UInt64 × α)) (s : Turned α) : Turned α :=
  items.foldl (fun s e => s.insert e) s

def lookup (key : UInt64) (s : Turned α) : Option α :=
  (s.entries.find? (fun e => e.1 == key)).map Prod.snd

theorem insert_perm (e : UInt64 × α) (s : Turned α) :
    (s.insert e).entries.Perm (e :: s.entries) := by
  unfold insert
  split
  · exact List.reverse_perm _
  · exact List.Perm.refl _

theorem insertAll_perm (items : List (UInt64 × α)) (s : Turned α) :
    (s.insertAll items).entries.Perm (items ++ s.entries) := by
  induction items generalizing s with
  | nil => exact List.Perm.refl _
  | cons e items ih =>
    have hstep := (s.insert_perm e).append_left items
    exact (ih (s.insert e)).trans (hstep.trans List.perm_middle)

/-- Without a doubling the newest item comes first. -/
theorem insertAll_few {items : List (UInt64 × α)} {s : Turned α}
    (h : items.length + s.entries.length < 4 * s.buckets) :
    s.insertAll items = ⟨s.buckets, items.reverse ++ s.entries⟩ := by
  induction items generalizing s with
  | nil => rfl
  | cons e items ih =>
    rw [List.length_cons] at h
    have hone : s.insert e = ⟨s.buckets, e :: s.entries⟩ := by
      unfold insert
      exact if_neg (by omega)
    have hrest := @ih (s.insert e) (by
      rw [hone, List.length_cons]
      dsimp only
      omega)
    rw [hone] at hrest
    change (s.insert e).insertAll items = _
    rw [hone, hrest, List.reverse_cons, List.append_assoc]
    rfl

/-- A table that has doubled is at least half full. -/
theorem insertAll_buckets (items : List (UInt64 × α)) (s : Turned α) :
    4 * (s.insertAll items).buckets ≤
      max (4 * s.buckets) (2 * (items.length + s.entries.length)) := by
  induction items generalizing s with
  | nil => exact Nat.le_max_left _ _
  | cons e items ih =>
    have hrest := ih (s.insert e)
    have hlen : (s.insert e).entries.length = s.entries.length + 1 :=
      (s.insert_perm e).length_eq
    have hone : 4 * (s.insert e).buckets ≤ max (4 * s.buckets) (2 * (s.entries.length + 1)) := by
      unfold insert
      split
      · dsimp only
        omega
      · exact Nat.le_max_left _ _
    rw [hlen] at hrest
    rw [List.length_cons]
    change 4 * ((s.insert e).insertAll items).buckets ≤ _
    omega

end Turned

namespace Htable
variable {α : Type} {t : Htable α}

/-- The items, chain by chain. -/
def items (t : Htable α) : List (UInt64 × α) := (List.range t.buckets).flatMap t.table

structure WF (t : Htable α) : Prop where
  buckets_pos : 0 < t.buckets
  mask_eq : t.mask + 1 = t.buckets
  max_eq : t.max_items = t.buckets * 4
  placed : ∀ i, ∀ e ∈ t.table i, hashIndex t.mask e.1 = i
  count : t.num_items = t.items.length

theorem hashIndex_lt (h : t.mask + 1 = t.buckets) (key : UInt64) :
    hashIndex t.mask key < t.buckets := by
  have := @Nat.and_le_right (key * 2654435761).toNat t.mask
  unfold hashIndex
  omega

/-- A front push onto one of the chains. -/
theorem flatMap_update_perm {β : Type} {f : Nat → List β} {n i : Nat} (x : β) (hi : i < n) :
    ((List.range n).flatMap (Function.update f i (x :: f i))).Perm
      (x :: (List.range n).flatMap f) := by
  induction n with
  | zero => exact absurd hi (Nat.not_lt_zero i)
  | succ n ih =>
    rw [List.range_succ, List.flatMap_append, List.flatMap_append]
    by_cases hin : i = n
    · subst hin
      have hsame : (List.range i).flatMap (Function.update f i (x :: f i)) =
          (List.range i).flatMap f := by
        apply List.flatMap_congr
        intro j hj
        exact Function.update_of_ne (Nat.ne_of_lt (List.mem_range.mp hj)) _ _
      rw [hsame, List.flatMap_singleton, List.flatMap_singleton, Function.update_self]
      exact List.perm_middle
    · rw [List.flatMap_singleton, List.flatMap_singleton, Function.update_of_ne (Ne.symm hin)]
      exact (ih (by omega)).append_right _

theorem link_items (h : t.mask + 1 = t.buckets) (e : UInt64 × α) :
    (t.link e).items.Perm (e :: t.items) :=
  flatMap_update_perm e (hashIndex_lt h e.1)

theorem WF.link (h : t.WF) (e : UInt64 × α) : (t.link e).WF := by
  refine ⟨h.buckets_pos, h.mask_eq, h.max_eq, ?_, ?_⟩
  · intro i x hx
    change x ∈ Function.update t.table (hashIndex t.mask e.1)
      (e :: t.table (hashIndex t.mask e.1)) i at hx
    by_cases hi : i = hashIndex t.mask e.1
    · rw [hi, Function.update_self] at hx
      rcases List.mem_cons.mp hx with rfl | hx
      · exact hi.symm
      · rw [hi]
        exact h.placed _ x hx
    · rw [Function.update_of_ne hi] at hx
      exact h.placed i x hx
  · have hlen := (link_items h.mask_eq e).length_eq
    have hcount := h.count
    rw [List.length_cons] at hlen
    change t.num_items + 1 = _
    omega

/-- What is to come of a walk that stands before `st`. -/
def rest (t : Htable α) (st : List (UInt64 × α) × Nat) : List (UInt64 × α) :=
  st.1 ++ (List.range' st.2 (t.buckets - st.2)).flatMap t.table

theorem rest_nextChain (fuel : Nat) (walkptr : List (UInt64 × α)) (walk_index : Nat) :
    t.rest (t.nextChain fuel walkptr walk_index) = t.rest (walkptr, walk_index) := by
  induction fuel generalizing walkptr walk_index with
  | zero => rfl
  | succ fuel ih =>
    rw [nextChain]
    split
    · rename_i h
      have hsplit : t.buckets - walk_index = (t.buckets - (walk_index + 1)) + 1 := by omega
      rw [ih]
      unfold rest
      dsimp only
      rw [hsplit, List.range'_succ, List.flatMap_cons, List.isEmpty_iff.mp h.1, List.nil_append]
    · rfl

/-- A walk that finds no further chain has been through all buckets. -/
theorem nextChain_nil {fuel walk_index : Nat} {walkptr : List (UInt64 × α)}
    (hfuel : t.buckets ≤ walk_index + fuel)
    (h : (t.nextChain fuel walkptr walk_index).1 = []) :
    t.rest (t.nextChain fuel walkptr walk_index) = [] := by
  induction fuel generalizing walkptr walk_index with
  | zero =>
    have hdone : t.buckets - walk_index = 0 := by omega
    rw [nextChain] at h ⊢
    unfold rest
    dsimp only at h ⊢
    rw [h, hdone]
    rfl
  | succ fuel ih =>
    rw [nextChain] at h ⊢
    split
    · rename_i hc
      rw [if_pos hc] at h
      exact ih (by omega) h
    · rename_i hc
      rw [if_neg hc] at h
      have hdone : t.buckets - walk_index = 0 := by
        have : ¬walk_index < t.buckets := fun hlt => hc ⟨List.isEmpty_iff.mpr h, hlt⟩
        omega
      unfold rest
      dsimp only at h ⊢
      rw [h, hdone]
      rfl

theorem rest_first (h : 0 < t.buckets) : t.rest t.first = t.items := by
  have hsplit : t.buckets = (t.buckets - 1) + 1 := by omega
  unfold first
  rw [rest_nextChain]
  unfold rest items
  dsimp only
  conv_rhs => rw [List.range_eq_range', hsplit, List.range'_succ, List.flatMap_cons]

/-- The walk links every item of `t` into `big`, in the order of the chains. -/
theorem growLoop_eq {fuel : Nat} {st : List (UInt64 × α) × Nat} {big : Htable α}
    (hfuel : (t.rest st).length ≤ fuel) (hst : st.1 = [] → t.rest st = []) :
    t.growLoop fuel st big = (t.rest st).foldl (fun t e => t.link e) big := by
  induction fuel generalizing st big with
  | zero =>
    have hnil : t.rest st = [] := List.length_eq_zero_iff.mp (Nat.le_zero.mp hfuel)
    rw [hnil]
    obtain ⟨walkptr, walk_index⟩ := st
    cases walkptr <;> rfl
  | succ fuel ih =>
    obtain ⟨walkptr, walk_index⟩ := st
    cases walkptr with
    | nil =>
      rw [hst rfl]
      rfl
    | cons item ni =>
      have hcons : t.rest (item :: ni, walk_index) = item :: t.rest (ni, walk_index) := rfl
      rw [hcons, List.length_cons] at hfuel
      rw [growLoop, hcons, List.foldl_cons]
      split
      · rename_i hni
        have hnil := List.isEmpty_iff.mp hni
        have hrest := t.rest_nextChain t.buckets [] walk_index
        rw [hnil, ← hrest] at hfuel ⊢
        exact ih (Nat.le_of_succ_le_succ hfuel) fun h => nextChain_nil (by omega) h
      · rename_i hni
        apply ih (Nat.le_of_succ_le_succ hfuel)
        intro h
        exact absurd (List.isEmpty_iff.mpr h) hni

/-- `big` before anything is linked into it. -/
def doubled (t : Htable α) : Htable α :=
  { table := fun _ => []
    mask := t.mask * 2 + 1
    num_items := 0
    buckets := t.buckets * 2
    max_items := t.buckets * 2 * 4 }

theorem grow_table_eq (h : t.WF) :
    t.grow_table = t.items.foldl (fun t e => t.link e) t.doubled := by
  have hrest := rest_first h.buckets_pos
  rw [← hrest]
  apply growLoop_eq
  · rw [hrest, h.count]
  · exact nextChain_nil (by omega)

theorem flatMap_nil_of {β : Type} (n : Nat) :
    (List.range n).flatMap (fun _ => ([] : List β)) = [] := by
  induction n with
  | zero => rfl
  | succ n ih => rw [List.range_succ, List.flatMap_append, ih]; rfl

theorem doubled_wf (h : t.WF) : t.doubled.WF := by
  have hpos := h.buckets_pos
  have hmask := h.mask_eq
  refine ⟨?_, ?_, rfl, ?_, ?_⟩
  · change 0 < t.buckets * 2
    omega
  · change t.mask * 2 + 1 + 1 = t.buckets * 2
    omega
  · intro i e he
    exact absurd he List.not_mem_nil
  · change 0 = ((List.range (t.buckets * 2)).flatMap (fun _ => ([] : List (UInt64 × α)))).length
    rw [flatMap_nil_of]
    rfl

/-- Linking one item after the other. -/
theorem linkAll_spec (xs : List (UInt64 × α)) {big : Htable α} (h : big.WF) :
    (xs.foldl (fun t e => t.link e) big).WF ∧
      (xs.foldl (fun t e => t.link e) big).mask = big.mask ∧
      (xs.foldl (fun t e => t.link e) big).buckets = big.buckets ∧
      (xs.foldl (fun t e => t.link e) big).num_items = big.num_items + xs.length ∧
      ∀ i, (xs.foldl (fun t e => t.link e) big).table i =
        (xs.filter (fun e => hashIndex big.mask e.1 = i)).reverse ++ big.table i := by
  induction xs generalizing big with
  | nil => exact ⟨h, rfl, rfl, rfl, fun i => rfl⟩
  | cons e xs ih =>
    obtain ⟨hwf, hmask, hbuckets, hnum, htable⟩ := ih (h.link e)
    refine ⟨hwf, hmask, hbuckets, ?_, ?_⟩
    · rw [List.foldl_cons, hnum, List.length_cons]
      change big.num_items + 1 + xs.length = _
      omega
    · intro i
      have hlink : (big.link e).table i =
          if hashIndex big.mask e.1 = i then e :: big.table i else big.table i := by
        change Function.update big.table (hashIndex big.mask e.1)
          (e :: big.table (hashIndex big.mask e.1)) i = _
        by_cases hi : hashIndex big.mask e.1 = i
        · rw [if_pos hi, hi, Function.update_self]
        · rw [if_neg hi, Function.update_of_ne (Ne.symm hi)]
      rw [List.foldl_cons, htable i, hlink]
      change (xs.filter (fun e => hashIndex big.mask e.1 = i)).reverse ++ _ = _
      by_cases hi : hashIndex big.mask e.1 = i
      · rw [if_pos hi, List.filter_cons_of_pos (by simpa using hi), List.reverse_cons,
          List.append_assoc]
        rfl
      · rw [if_neg hi, List.filter_cons_of_neg (by simpa using hi)]

/-- The items of one key, as a look-up meets them. -/
def ofKey (t : Htable α) (key : UInt64) : List (UInt64 × α) :=
  (t.table (hashIndex t.mask key)).filter (fun e => e.1 == key)

theorem lookup_eq (t : Htable α) (key : UInt64) :
    t.lookup key = (t.ofKey key).head?.map Prod.snd := by
  unfold lookup ofKey
  rw [List.head?_filter]

/-- Of a list of chains only one counts. -/
theorem flatMap_single {β : Type} {f : Nat → List β} {n i : Nat} (hi : i < n)
    (h : ∀ j, j ≠ i → f j = []) : (List.range n).flatMap f = f i := by
  induction n with
  | zero => exact absurd hi (Nat.not_lt_zero i)
  | succ n ih =>
    rw [List.range_succ, List.flatMap_append, List.flatMap_singleton]
    by_cases hin : i = n
    · have hnil : (List.range n).flatMap f = [] := by
        rw [← flatMap_nil_of (β := β) n]
        apply List.flatMap_congr
        intro j hj
        have := List.mem_range.mp hj
        exact h j (by omega)
      rw [hnil, hin, List.nil_append]
    · rw [ih (by omega), h n (Ne.symm hin), List.append_nil]

theorem filter_items (h : t.WF) (key : UInt64) :
    t.items.filter (fun e => e.1 == key) = t.ofKey key := by
  unfold items ofKey
  rw [List.filter_flatMap]
  apply flatMap_single (hashIndex_lt h.mask_eq key)
  intro j hj
  apply List.filter_eq_nil_iff.mpr
  intro e he hkey
  apply hj
  rw [← h.placed j e he, beq_iff_eq.mp hkey]

/-- Growing turns the items of a key around. -/
theorem ofKey_grow (h : t.WF) (key : UInt64) :
    t.grow_table.ofKey key = (t.ofKey key).reverse := by
  obtain ⟨-, hmask, -, -, htable⟩ := linkAll_spec t.items (doubled_wf h)
  rw [grow_table_eq h]
  unfold ofKey
  rw [hmask, htable, List.filter_append, List.filter_reverse, List.filter_filter]
  have hboth : (t.items.filter fun e =>
      (e.1 == key && decide (hashIndex t.doubled.mask e.1 = hashIndex t.doubled.mask key))) =
      t.items.filter (fun e => e.1 == key) := by
    apply List.filter_congr
    intro e _
    by_cases hkey : e.1 = key
    · simp [hkey]
    · simp [hkey]
  rw [hboth, filter_items h]
  change _ ++ [].filter _ = _
  rw [List.filter_nil, List.append_nil]
  rfl

theorem linkAll_items (xs : List (UInt64 × α)) {big : Htable α} (h : big.WF) :
    (xs.foldl (fun t e => t.link e) big).items.Perm (xs ++ big.items) := by
  induction xs generalizing big with
  | nil => exact List.Perm.refl _
  | cons e xs ih =>
    have hstep := (link_items h.mask_eq e).append_left xs
    exact (ih (h.link e)).trans (hstep.trans List.perm_middle)

theorem grow_items (h : t.WF) : t.grow_table.items.Perm t.items := by
  have hempty : t.doubled.items = [] := flatMap_nil_of _
  have hperm := linkAll_items t.items (doubled_wf h)
  rw [hempty, List.append_nil] at hperm
  rw [grow_table_eq h]
  exact hperm

/-- `t` is the table that `s` describes. -/
structure Refines (t : Htable α) (s : Turned α) : Prop where
  wf : t.WF
  room : t.num_items < t.max_items
  buckets : t.buckets = s.buckets
  items : t.items.Perm s.entries
  order : ∀ key, t.ofKey key = s.entries.filter (fun e => e.1 == key)

theorem ofKey_link (e : UInt64 × α) (t : Htable α) (key : UInt64) :
    (t.link e).ofKey key = if e.1 = key then e :: t.ofKey key else t.ofKey key := by
  unfold ofKey link
  dsimp only
  by_cases hi : hashIndex t.mask key = hashIndex t.mask e.1
  · rw [hi, Function.update_self]
    by_cases hkey : e.1 = key
    · rw [if_pos hkey, List.filter_cons_of_pos (by simpa using hkey)]
    · rw [if_neg hkey, List.filter_cons_of_neg (by simpa using hkey)]
  · have hkey : e.1 ≠ key := fun heq => hi (by rw [heq])
    rw [Function.update_of_ne hi, if_neg hkey]

theorem Refines.insert {s : Turned α} (h : Refines t s) (e : UInt64 × α) :
    Refines (t.insert e) (s.insert e) := by
  have hwf := h.wf.link e
  have hlen : t.num_items = s.entries.length := h.wf.count.trans h.items.length_eq
  have hitems : (t.link e).items.Perm (e :: s.entries) :=
    (link_items h.wf.mask_eq e).trans (h.items.cons e)
  have horder : ∀ key, (t.link e).ofKey key = (e :: s.entries).filter (fun e => e.1 == key) := by
    intro key
    rw [ofKey_link, List.filter_cons, h.order key]
    simp only [beq_iff_eq]
  have hbuckets := h.buckets
  have hmax : (t.link e).max_items = t.buckets * 4 := h.wf.max_eq
  have hnum : (t.link e).num_items = t.num_items + 1 := rfl
  unfold Htable.insert Turned.insert
  dsimp only
  by_cases hfull : (t.link e).max_items ≤ (t.link e).num_items
  · obtain ⟨hgwf, -, hgbuckets, hgnum, -⟩ := linkAll_spec (t.link e).items (doubled_wf hwf)
    rw [← grow_table_eq hwf] at hgwf hgbuckets hgnum
    rw [if_pos hfull, if_pos (by omega)]
    refine ⟨hgwf, ?_, ?_, ?_, ?_⟩
    · rw [hgnum, ← hwf.count, hgwf.max_eq, hgbuckets]
      change 0 + (t.link e).num_items < t.buckets * 2 * 4
      have := h.room
      have := h.wf.max_eq
      have := h.wf.buckets_pos
      omega
    · rw [hgbuckets]
      change t.buckets * 2 = 2 * s.buckets
      omega
    · exact (grow_items hwf).trans (hitems.trans (List.reverse_perm _).symm)
    · intro key
      rw [ofKey_grow hwf, horder key, List.filter_reverse]
  · rw [if_neg hfull, if_neg (by omega)]
    exact ⟨hwf, Nat.not_le.mp hfull, hbuckets, hitems, horder⟩

theorem Refines.insertAll (xs : List (UInt64 × α)) {s : Turned α} (h : Refines t s) :
    Refines (t.insertAll xs) (s.insertAll xs) := by
  induction xs generalizing t s with
  | nil => exact h
  | cons e xs ih => exact ih (h.insert e)

/-- A table just set up, and one that `ResetTable` has emptied. -/
theorem refines_empty (mask buckets : Nat) (h : mask + 1 = buckets) :
    Refines (⟨fun _ => [], mask, 0, buckets, buckets * 4⟩ : Htable α) ⟨buckets, []⟩ := by
  have hempty : (⟨fun _ => [], mask, 0, buckets, buckets * 4⟩ : Htable α).items = [] :=
    flatMap_nil_of _
  have hpos : 0 < buckets := by omega
  refine ⟨⟨hpos, h, rfl, ?_, ?_⟩, ?_, rfl, ?_, fun _ => rfl⟩
  · intro i e he
    exact absurd he List.not_mem_nil
  · rw [hempty]
    rfl
  · change 0 < buckets * 4
    omega
  · rw [hempty]

theorem Refines.lookup_eq {s : Turned α} (h : Refines t s) (key : UInt64) :
    t.lookup key = s.lookup key := by
  rw [Htable.lookup_eq, h.order, List.head?_filter]
  rfl

/-- `ResetTable` keeps the buckets. -/
theorem Refines.reset {s : Turned α} (h : Refines t s) :
    Refines t.ResetTable ⟨s.buckets, []⟩ := by
  have hmax := h.wf.max_eq
  have heq : t.ResetTable = ⟨fun _ => [], t.mask, 0, t.buckets, t.buckets * 4⟩ := by
    unfold ResetTable
    rw [hmax]
  rw [heq, ← h.buckets]
  exact refines_empty t.mask t.buckets h.wf.mask_eq

theorem init_refines (tsize : Nat) :
    Refines (init tsize : Htable α) ⟨(init tsize : Htable α).buckets, []⟩ := by
  apply refines_empty
  have := Nat.two_pow_pos (pwrLoop (tsize / 4) (tsize / 4) 0)
  change 2 ^ _ - 1 + 1 = 2 ^ _
  omega

/-- Whatever has been encoded before, an encoding starts with an empty table. -/
theorem encodings_refines (tsize : Nat) (earlier : List (List (UInt64 × α))) :
    Refines (encodings tsize earlier).ResetTable ⟨(encodings tsize earlier).buckets, []⟩ := by
  have hsome : ∃ s, Refines (encodings tsize earlier) s := by
    induction earlier using List.reverseRecOn with
    | nil => exact ⟨_, init_refines tsize⟩
    | append_singleton earlier items ih =>
      obtain ⟨s, hs⟩ := ih
      unfold encodings
      rw [List.foldl_append]
      exact ⟨_, hs.reset.insertAll items⟩
  obtain ⟨s, hs⟩ := hsome
  rw [hs.buckets]
  exact hs.reset

theorem pwrLoop_le (fuel tsize pwr : Nat) :
    2 ^ pwrLoop fuel tsize pwr ≤ 2 ^ pwr * max 1 (2 * tsize) := by
  induction fuel generalizing tsize pwr with
  | zero => exact Nat.le_mul_of_pos_right _ (by omega)
  | succ fuel ih =>
    unfold pwrLoop
    split
    · exact Nat.le_mul_of_pos_right _ (by omega)
    · refine (ih (tsize / 2) (pwr + 1)).trans ?_
      rw [Nat.pow_succ, Nat.mul_assoc]
      apply Nat.mul_le_mul_left
      omega

/-- The counters stay in the range of `u_int32_t` while fewer than 2^31 strings are inserted. -/
theorem encodings_buckets {tsize : Nat} (hsize : tsize < 2 ^ 31)
    {earlier : List (List (UInt64 × α))} (hearlier : ∀ items ∈ earlier, items.length < 2 ^ 31) :
    4 * (encodings tsize earlier).buckets < 2 ^ 32 := by
  induction earlier using List.reverseRecOn with
  | nil =>
    have hpwr := pwrLoop_le (tsize / 4) (tsize / 4) 0
    change 4 * 2 ^ pwrLoop (tsize / 4) (tsize / 4) 0 < 2 ^ 32
    omega
  | append_singleton earlier items ih =>
    have hbefore := ih fun items' h => hearlier items' (List.mem_append_left _ h)
    have hitems := hearlier items (by simp)
    have hgrown := Turned.insertAll_buckets items ⟨(encodings tsize earlier).buckets, []⟩
    have hnew := ((encodings_refines tsize earlier).insertAll items).buckets
    have hsnoc : encodings tsize (earlier ++ [items]) =
        (encodings tsize earlier).ResetTable.insertAll items := by
      unfold encodings
      rw [List.foldl_append]
      rfl
    rw [hsnoc, hnew]
    rw [List.length_nil, Nat.add_zero] at hgrown
    dsimp only at hgrown
    omega

end Htable

section Lookup
variable {α : Type}

theorem Turned.lookup_some {s : Turned α} {key : UInt64} {x : α} (h : s.lookup key = some x) :
    (key, x) ∈ s.entries := by
  obtain ⟨⟨k, y⟩, hfind, hxy⟩ := Option.map_eq_some_iff.mp h
  have hkey : k = key := by simpa using List.find?_some hfind
  have hmem := List.mem_of_find?_eq_some hfind
  change y = x at hxy
  rwa [hkey, hxy] at hmem

theorem Turned.lookup_none {s : Turned α} {key : UInt64} :
    s.lookup key = none ↔ ∀ x, (key, x) ∉ s.entries := by
  unfold lookup
  rw [Option.map_eq_none_iff, List.find?_eq_none]
  constructor
  · intro h x hx
    exact h (key, x) hx (beq_self_eq_true key)
  · rintro h ⟨k, x⟩ hx hkey
    have hk : k = key := by simpa using hkey
    rw [hk] at hx
    exact h x hx

theorem insertAll_entries (xs : List (UInt64 × α)) (buckets : Nat) :
    (Turned.insertAll xs ⟨buckets, []⟩).entries.Perm xs := by
  have hperm := Turned.insertAll_perm xs ⟨buckets, []⟩
  rwa [List.append_nil] at hperm

/-- The table of an encoding: whatever has been encoded before and whatever strings are inserted, and
however often it doubles, a key is answered as by the list of all of them that turns around at each
doubling; without one the newest string comes first. So a key is found exactly when a string with it
has been inserted, and nothing is lost or doubled. -/
theorem htable_lookup (tsize : Nat) (earlier : List (List (UInt64 × α))) (xs : List (UInt64 × α)) :
    (∀ key, ((Htable.encodings tsize earlier).ResetTable.insertAll xs).lookup key =
        (Turned.insertAll xs ⟨(Htable.encodings tsize earlier).buckets, []⟩).lookup key) ∧
      (xs.length < 4 * (Htable.encodings tsize earlier).buckets →
        ∀ key, ((Htable.encodings tsize earlier).ResetTable.insertAll xs).lookup key =
          (xs.reverse.find? (fun e => e.1 == key)).map Prod.snd) ∧
      (∀ key x, ((Htable.encodings tsize earlier).ResetTable.insertAll xs).lookup key = some x →
        (key, x) ∈ xs) ∧
      (∀ key, ((Htable.encodings tsize earlier).ResetTable.insertAll xs).lookup key = none ↔
        ∀ x, (key, x) ∉ xs) ∧
      ((Htable.encodings tsize earlier).ResetTable.insertAll xs).items.Perm xs ∧
      ((Htable.encodings tsize earlier).ResetTable.insertAll xs).num_items = xs.length ∧
      ((Htable.encodings tsize earlier).ResetTable.insertAll xs).num_items <
        4 * ((Htable.encodings tsize earlier).ResetTable.insertAll xs).buckets ∧
      (tsize < 2 ^ 31 → (∀ items ∈ earlier, items.length < 2 ^ 31) → xs.length < 2 ^ 31 →
        4 * ((Htable.encodings tsize earlier).ResetTable.insertAll xs).buckets < 2 ^ 32) := by
  have href := (Htable.encodings_refines tsize earlier).insertAll xs
  have hperm := insertAll_entries xs (Htable.encodings tsize earlier).buckets
  have hitems := href.items.trans hperm
  refine ⟨href.lookup_eq, fun hfew key => ?_, fun key x h => ?_, fun key => ?_, hitems, ?_, ?_, ?_⟩
  · rw [href.lookup_eq, @Turned.insertAll_few _ xs ⟨_, []⟩ hfew, List.append_nil]
    rfl
  · rw [href.lookup_eq] at h
    exact hperm.mem_iff.mp (Turned.lookup_some h)
  · rw [href.lookup_eq, Turned.lookup_none]
    exact forall_congr' fun x => not_congr hperm.mem_iff
  · rw [href.wf.count, hitems.length_eq]
  · have hroom := href.room
    have hmax := href.wf.max_eq
    omega
  · intro hsize hearlier hxs
    have hbefore := Htable.encodings_buckets hsize hearlier
    have hgrown := Turned.insertAll_buckets xs ⟨(Htable.encodings tsize earlier).buckets, []⟩
    rw [List.length_nil, Nat.add_zero] at hgrown
    rw [href.buckets]
    dsimp only at hgrown
    omega

example :
    ((Htable.encodings 0 [[(9, 3)]]).ResetTable.insertAll [(7, 1), (7, 2), (9, 3)]).lookup 7 =
        some 2 ∧
      ((Htable.encodings 0 []).ResetTable.insertAll [(7, 1), (7, 2), (9, 3), (9, 4)]).lookup 7 =
        some 1 := by
  decide +kernel

end Lookup

end ShieldReduce.EDelta
