import Mathlib.Data.List.Induction
import Mathlib.Data.List.Nodup

/-!
# A least recently used map

A map of bounded size with its recency list: reading and inserting a key move it to the front, and
what no longer fits falls off the end.
-/

namespace ShieldReduce.Lib

/-- `keys` are the bindings, the most recently used first. -/
structure Lru (K V : Type) where
  maxSize : Nat
  elasticity : Nat
  keys : List (K × V)

/-- The keys of a history in the order of their last use, the latest first. -/
def recency {K : Type} [DecidableEq K] (seen : List K) : List K :=
  seen.foldl (fun names x => x :: names.filter (· ≠ x)) []

namespace Lru
variable {K V : Type} [DecidableEq K] (c : Lru K V) (k : K)

def size : Nat := c.keys.length

def lookup : Option V := (c.keys.find? fun p => p.1 = k).map Prod.snd

def contains : Bool := (c.lookup k).isSome

def names : List K := c.keys.map Prod.fst

/-- Moves the binding of `k` to the front and gives it the value `v`. -/
def splice (v : V) : Lru K V := { c with keys := (k, v) :: c.keys.filter fun p => p.1 ≠ k }

/-- Pops bindings off the end until `maxSize` are left; a `maxSize` of 0 means no bound. -/
def prune : Lru K V :=
  if c.maxSize = 0 ∨ c.size < c.maxSize + c.elasticity then c
  else { c with keys := c.keys.take c.maxSize }

def insert (v : V) : Lru K V :=
  if c.contains k then c.splice k v else prune { c with keys := (k, v) :: c.keys }

/-- `none`: the key is not there. -/
def get : Option (V × Lru K V) := (c.lookup k).map fun v => (v, c.splice k v)

/-- The value of the binding at the end. -/
def pruneValue : Option V := c.keys.getLast?.map Prod.snd

end Lru

section Recency
variable {K : Type} [DecidableEq K]

theorem recency_snoc (seen : List K) (x : K) :
    recency (seen ++ [x]) = x :: (recency seen).filter (· ≠ x) := by
  unfold recency
  rw [List.foldl_append]
  rfl

theorem recency_nodup (seen : List K) : (recency seen).Nodup := by
  induction seen using List.reverseRecOn with
  | nil => exact List.nodup_nil
  | append_singleton seen x ih =>
    rw [recency_snoc]
    apply List.nodup_cons.mpr
    exact ⟨by simp, ih.filter _⟩

theorem filter_ne_self {l : List K} {x : K} (h : x ∉ l) : l.filter (· ≠ x) = l := by
  apply List.filter_eq_self.mpr
  intro y hy
  have hne : y ≠ x := by
    rintro rfl
    exact h hy
  simpa using hne

/-- A key that stands before the cut leaves the same prefix as in the whole list. -/
theorem take_touch {l : List K} (hnodup : l.Nodup) {n : Nat} {x : K} (h : x ∈ l.take n) :
    x :: (l.take n).filter (· ≠ x) = (x :: l.filter (· ≠ x)).take n := by
  induction l generalizing n with
  | nil => simp at h
  | cons y l ih =>
    obtain ⟨hy, hnodup⟩ := List.nodup_cons.mp hnodup
    cases n with
    | zero => simp at h
    | succ n =>
      rw [List.take_succ_cons] at h ⊢
      by_cases hxy : x = y
      · subst hxy
        have htake : x ∉ l.take n := fun hx => hy (List.mem_of_mem_take hx)
        rw [List.filter_cons_of_neg (by simp), List.filter_cons_of_neg (by simp),
          filter_ne_self hy, filter_ne_self htake, List.take_succ_cons]
      · have hmem : x ∈ l.take n := (List.mem_cons.mp h).resolve_left hxy
        have hrest := ih hnodup hmem
        cases n with
        | zero => simp at hmem
        | succ n =>
          rw [List.take_succ_cons] at hrest
          have htail := (List.cons.inj hrest).2
          have hkeep : ∀ l', (y :: l').filter (· ≠ x) = y :: l'.filter (· ≠ x) := by
            intro l'
            apply List.filter_cons_of_pos
            simpa using fun hyx => hxy hyx.symm
          rw [hkeep, hkeep, List.take_succ_cons, List.take_succ_cons, htail]

/-- A key that does not stand before the cut pushes the last one off. -/
theorem take_push {l : List K} {n : Nat} {x : K} (h : x ∉ l.take n) :
    (x :: l.take n).take n = (x :: l.filter (· ≠ x)).take n := by
  cases n with
  | zero => rfl
  | succ n =>
    have hsplit : l.filter (· ≠ x) = l.take (n + 1) ++ (l.drop (n + 1)).filter (· ≠ x) := by
      conv_lhs => rw [← List.take_append_drop (n + 1) l]
      rw [List.filter_append, filter_ne_self h]
    rw [List.take_succ_cons, List.take_succ_cons, hsplit, List.take_take,
      Nat.min_eq_left (Nat.le_succ n)]
    by_cases hlen : n ≤ l.length
    · rw [List.take_append_of_le_length, List.take_take, Nat.min_eq_left (Nat.le_succ n)]
      rw [List.length_take]
      omega
    · have hall : l.drop (n + 1) = [] := List.drop_eq_nil_of_le (by omega)
      rw [hall, List.filter_nil, List.append_nil, List.take_take, Nat.min_eq_left (Nat.le_succ n)]

end Recency

namespace Lru
variable {K V : Type} [DecidableEq K]

/-- A bounded map whose keys are distinct. -/
structure Ok (c : Lru K V) : Prop where
  bounded : 0 < c.maxSize
  strict : c.elasticity = 0
  le : c.size ≤ c.maxSize
  nodup : c.names.Nodup

variable {c : Lru K V} {k : K}

omit [DecidableEq K] in
theorem names_length (c : Lru K V) : c.names.length = c.size := List.length_map ..

theorem contains_iff : c.contains k = true ↔ k ∈ c.names := by
  unfold contains lookup names
  rw [Option.isSome_map, List.find?_isSome, List.mem_map]
  constructor
  · rintro ⟨p, hp, hk⟩
    exact ⟨p, hp, by simpa using hk⟩
  · rintro ⟨p, hp, hk⟩
    exact ⟨p, hp, by simpa using hk⟩

theorem lookup_some_mem {v : V} (h : c.lookup k = some v) : (k, v) ∈ c.keys := by
  unfold lookup at h
  obtain ⟨p, hp, rfl⟩ := Option.map_eq_some_iff.mp h
  have hk : p.1 = k := by simpa using List.find?_some hp
  rw [← hk]
  exact List.mem_of_find?_eq_some hp

theorem lookup_of_mem (hnodup : c.names.Nodup) {v : V} (h : (k, v) ∈ c.keys) :
    c.lookup k = some v := by
  have hsome : c.contains k = true := contains_iff.mpr (List.mem_map.mpr ⟨(k, v), h, rfl⟩)
  unfold contains at hsome
  obtain ⟨w, hw⟩ := Option.isSome_iff_exists.mp hsome
  have hmem := lookup_some_mem hw
  have heq := List.inj_on_of_nodup_map hnodup h hmem rfl
  rw [hw, ← (Prod.mk.inj heq).2]

theorem lookup_iff (hnodup : c.names.Nodup) {v : V} : c.lookup k = some v ↔ (k, v) ∈ c.keys :=
  ⟨lookup_some_mem, lookup_of_mem hnodup⟩

theorem names_splice (v : V) : (c.splice k v).names = k :: c.names.filter (· ≠ k) := by
  unfold splice names
  rw [List.map_cons, List.filter_map]
  rfl

/-- Reading keeps the bindings. -/
theorem lookup_splice {v : V} (hv : c.lookup k = some v) (k' : K) :
    (c.splice k v).lookup k' = c.lookup k' := by
  by_cases hk : k = k'
  · subst hk
    rw [hv]
    unfold lookup splice
    rw [List.find?_cons_of_pos (by simp)]
    rfl
  · unfold lookup splice
    rw [List.find?_cons_of_neg (by simpa using hk), List.find?_filter]
    congr 2
    funext p
    by_cases hp : p.1 = k'
    · have hne : k' ≠ k := fun heq => hk heq.symm
      simp [hp, hne]
    · simp [hp]

theorem splice_perm (hnodup : c.names.Nodup) {v : V} (hk : c.lookup k = some v) :
    (c.splice k v).keys.Perm c.keys := by
  have hmem := lookup_some_mem hk
  have hkeys : c.keys.Nodup := hnodup.of_map _
  have hcons : (c.splice k v).keys.Nodup := by
    apply List.nodup_cons.mpr
    exact ⟨by simp, hkeys.filter _⟩
  apply (List.perm_ext_iff_of_nodup hcons hkeys).mpr
  intro p
  unfold splice
  rw [List.mem_cons, List.mem_filter]
  constructor
  · rintro (rfl | hp)
    · exact hmem
    · exact hp.1
  · intro hp
    by_cases hpk : p.1 = k
    · exact Or.inl (List.inj_on_of_nodup_map hnodup hp hmem hpk)
    · exact Or.inr ⟨hp, by simpa using hpk⟩

theorem Ok.splice (h : c.Ok) {v : V} (hk : c.lookup k = some v) : (c.splice k v).Ok := by
  have hperm := splice_perm h.nodup hk
  exact ⟨h.bounded, h.strict, Nat.le_trans (Nat.le_of_eq hperm.length_eq) h.le,
    (hperm.map Prod.fst).nodup_iff.mpr h.nodup⟩

/-- A new key goes in front, and what no longer fits goes. -/
theorem Ok.keys_insert (h : c.Ok) (hk : c.contains k = false) (v : V) :
    c.insert k v = { c with keys := ((k, v) :: c.keys).take c.maxSize } := by
  unfold Lru.insert prune
  rw [if_neg (by simp [hk])]
  dsimp only
  rw [h.strict, Nat.add_zero]
  unfold size
  by_cases hroom : ((k, v) :: c.keys).length < c.maxSize
  · rw [if_pos (Or.inr hroom), List.take_of_length_le (Nat.le_of_lt hroom)]
  · have hpos := h.bounded
    rw [if_neg]
    rintro (hzero | hlt)
    · omega
    · exact hroom hlt

theorem Ok.maxSize_insert (h : c.Ok) (hk : c.contains k = false) (v : V) :
    (c.insert k v).maxSize = c.maxSize := by
  rw [h.keys_insert hk]

theorem Ok.names_insert (h : c.Ok) (hk : c.contains k = false) (v : V) :
    (c.insert k v).names = (k :: c.names).take c.maxSize := by
  rw [h.keys_insert hk]
  unfold names
  rw [List.map_take, List.map_cons]

theorem Ok.insert (h : c.Ok) (hk : c.contains k = false) (v : V) : (c.insert k v).Ok := by
  have hnames := h.names_insert hk v
  have hnot : k ∉ c.names := fun hmem => by
    rw [contains_iff.mpr hmem] at hk
    simp at hk
  refine ⟨?_, ?_, ?_, ?_⟩
  · rw [h.maxSize_insert hk]
    exact h.bounded
  · rw [h.keys_insert hk]
    exact h.strict
  · rw [h.keys_insert hk]
    exact List.length_take_le ..
  · rw [hnames]
    exact (List.nodup_cons.mpr ⟨hnot, h.nodup⟩).take

theorem Ok.lookup_insert (h : c.Ok) (hk : c.contains k = false) (v : V) {k' : K} {w : V}
    (hw : (c.insert k v).lookup k' = some w) : (k' = k ∧ w = v) ∨ c.lookup k' = some w := by
  rw [lookup_iff (h.insert hk v).nodup, h.keys_insert hk] at hw
  rcases List.mem_cons.mp (List.mem_of_mem_take hw) with heq | hmem
  · exact Or.inl (Prod.mk.inj heq)
  · exact Or.inr (lookup_of_mem h.nodup hmem)

theorem Ok.lookup_insert_self (h : c.Ok) (hk : c.contains k = false) (v : V) :
    (c.insert k v).lookup k = some v := by
  rw [lookup_iff (h.insert hk v).nodup, h.keys_insert hk]
  obtain ⟨n, hn⟩ := Nat.exists_eq_succ_of_ne_zero (Nat.ne_of_gt h.bounded)
  dsimp only
  rw [hn, List.take_succ_cons]
  exact List.mem_cons_self

/-- In a full map the last binding goes. -/
theorem Ok.keys_insert_full (h : c.Ok) (hk : c.contains k = false) (hfull : c.size = c.maxSize)
    (v : V) : (c.insert k v).keys = (k, v) :: c.keys.dropLast := by
  rw [h.keys_insert hk]
  obtain ⟨n, hn⟩ := Nat.exists_eq_succ_of_ne_zero (Nat.ne_of_gt h.bounded)
  have hlen : c.keys.length = n + 1 := hfull.trans hn
  dsimp only
  rw [hn, List.take_succ_cons, List.dropLast_eq_take, hlen]
  rfl

/-- The keys after a history of reads and insertions are the latest ones. -/
theorem names_touch {seen : List K} {n : Nat}
    (hseen : c.names = (recency seen).take n) {v : V} (hk : c.lookup k = some v) :
    (c.splice k v).names = (recency (seen ++ [k])).take n := by
  have hmem : k ∈ (recency seen).take n := by
    rw [← hseen]
    apply contains_iff.mp
    unfold contains
    rw [hk]
    rfl
  rw [names_splice, hseen, recency_snoc, take_touch (recency_nodup seen) hmem]

end Lru

end ShieldReduce.Lib
