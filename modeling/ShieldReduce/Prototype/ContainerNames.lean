import ShieldReduce.Lib.Numerals
import ShieldReduce.Prototype.Containers

/-!
# Container names

`tool::CreateUUID` counts up to `times` in the digits of `container_id_num`, carrying only when the
lowest digit runs over, and writes the digits in letters, the highest first. The other modules use
the name that comes of it, `CreateUUID`.
-/

namespace ShieldReduce.Prototype
open Lib Store

section Digits

/-- Writing `container_id_num[i]`; past the array there is nothing to write to. -/
def setDigit (container_id_num : List Nat) (i v : Nat) : Option (List Nat) :=
  if i < container_id_num.length then some (container_id_num.set i v) else none

def clearDigits (idLen : Nat) (container_id_num : List Nat) : Option (List Nat) :=
  (List.range idLen).foldlM (fun num k => setDigit num k 0) container_id_num

/-- The body of the carry loop. -/
def carryDigit (container_id_num : List Nat) (i : Nat) : Option (List Nat) :=
  (container_id_num[i]?).bind fun d =>
    if d = 36 then
      (container_id_num[i + 1]?).bind fun up =>
        (setDigit container_id_num (i + 1) (up + 1)).bind fun num => setDigit num i 0
    else some container_id_num

def carryLoop (idLen : Nat) (container_id_num : List Nat) : Option (List Nat) :=
  (List.range idLen).foldlM carryDigit container_id_num

/-- One pass of the counting loop. -/
def countDigit (idLen : Nat) (container_id_num : List Nat) : Option (List Nat) :=
  (container_id_num[0]?).bind fun low =>
    (setDigit container_id_num 0 (low + 1)).bind fun num =>
      if low + 1 = 36 then carryLoop idLen num else some num

def countLoop (idLen : Nat) : Nat → List Nat → Option (List Nat)
  | 0, container_id_num => some container_id_num
  | times + 1, container_id_num =>
    (countDigit idLen container_id_num).bind (countLoop idLen times)

def writeLetters (idLen : Nat) (container_id_num : List Nat) : Option Bytes :=
  (List.range idLen).mapM fun i => (container_id_num[idLen - 1 - i]?).map ALPHABET

/-- `CreateUUID` on the digits that the last call left; the name and the digits after it. -/
def createUUID (idLen times : Nat) (container_id_num : List Nat) : Option (Bytes × List Nat) :=
  (clearDigits idLen container_id_num).bind fun num =>
    (countLoop idLen times num).bind fun num =>
      (writeLetters idLen num).map fun name => (name, num)

end Digits

section Loops
variable {num : List Nat}

/-- The digits from `i` on are cleared. -/
theorem clearDigits_from (low high : List Nat) :
    (List.range' low.length high.length).foldlM (fun num k => setDigit num k 0) (low ++ high) =
      some (low ++ List.replicate high.length 0) := by
  induction high generalizing low with
  | nil => rfl
  | cons d high ih =>
    have hset : setDigit (low ++ d :: high) low.length 0 = some ((low ++ [0]) ++ high) := by
      unfold setDigit
      rw [if_pos (by simp), List.set_append_right _ _ (Nat.le_refl _)]
      simp
    rw [List.length_cons, List.range'_succ, List.foldlM_cons, hset]
    change List.foldlM _ ((low ++ [0]) ++ high) _ = _
    have hrest := ih (low ++ [0])
    rw [List.length_append, List.length_singleton] at hrest
    rw [hrest, List.replicate_succ, List.append_assoc]
    rfl

theorem clearDigits_eq (num : List Nat) :
    clearDigits num.length num = some (List.replicate num.length 0) := by
  unfold clearDigits
  rw [List.range_eq_range']
  exact clearDigits_from [] num

/-- A carry keeps the value; the digit it leaves is in range. -/
theorem carryDigit_spec {low high : List Nat} {d : Nat} (hd : d ≤ 36)
    (hvalue : Nat.ofDigits 36 (low ++ d :: high) < 36 ^ (low.length + 1 + high.length)) :
    ∃ d' high', carryDigit (low ++ d :: high) low.length = some ((low ++ [d']) ++ high') ∧
      d' < 36 ∧ high'.length = high.length ∧
      Nat.ofDigits 36 ((low ++ [d']) ++ high') = Nat.ofDigits 36 (low ++ d :: high) ∧
      ((∀ x ∈ high, x < 36) → ∀ up rest, high' = up :: rest → up ≤ 36 ∧ ∀ x ∈ rest, x < 36) := by
  have hread : (low ++ d :: high)[low.length]? = some d := by simp
  unfold carryDigit
  rw [hread, Option.bind_some]
  by_cases hfull : d = 36
  · rw [if_pos hfull]
    cases high with
    | nil =>
      have hlast : 36 ^ low.length * 36 ≤ Nat.ofDigits 36 (low ++ [d]) := by
        rw [Nat.ofDigits_append, Nat.ofDigits_singleton, hfull]
        exact Nat.le_add_left _ _
      rw [List.length_nil, Nat.add_zero, Nat.pow_succ] at hvalue
      omega
    | cons up high =>
      refine ⟨0, (up + 1) :: high, ?_, by omega, rfl, ?_, ?_⟩
      · have hup : (low ++ d :: up :: high)[low.length + 1]? = some up := by
          rw [List.getElem?_append_right (by omega)]
          simp
        rw [hup, Option.bind_some]
        unfold setDigit
        rw [if_pos (by simp), Option.bind_some, if_pos (by simp)]
        rw [List.set_append_right _ _ (by omega), List.set_append_right _ _ (Nat.le_refl _)]
        simp
      · have hjoin : low ++ [0] ++ (up + 1) :: high = low ++ 0 :: (up + 1) :: high := by
          rw [List.append_assoc]
          rfl
        rw [hjoin, Nat.ofDigits_append, Nat.ofDigits_append, hfull]
        simp only [Nat.ofDigits_cons]
        ring
      · intro hhigh up' rest heq
        obtain ⟨hup, hrest⟩ := List.cons.inj heq
        rw [← hup, ← hrest]
        exact ⟨hhigh up List.mem_cons_self, fun x hx => hhigh x (List.mem_cons_of_mem up hx)⟩
  · rw [if_neg hfull]
    refine ⟨d, high, by simp, by omega, rfl, by simp, ?_⟩
    intro hhigh up rest heq
    rw [heq] at hhigh
    exact ⟨(hhigh up List.mem_cons_self).le, fun x hx => hhigh x (List.mem_cons_of_mem up hx)⟩

/-- The carry loop from a position on: below it all digits are in range, at it one may be full. -/
theorem carryLoop_from {low high : List Nat} {d : Nat} (hlow : ∀ x ∈ low, x < 36) (hd : d ≤ 36)
    (hhigh : ∀ x ∈ high, x < 36)
    (hvalue : Nat.ofDigits 36 (low ++ d :: high) < 36 ^ (low.length + 1 + high.length)) :
    ∃ num', (List.range' low.length (high.length + 1)).foldlM carryDigit (low ++ d :: high) =
        some num' ∧ num'.length = low.length + 1 + high.length ∧ (∀ x ∈ num', x < 36) ∧
      Nat.ofDigits 36 num' = Nat.ofDigits 36 (low ++ d :: high) := by
  induction hn : high.length generalizing low d high with
  | zero =>
    obtain ⟨d', high', hcarry, hd', hlen, hsame, _⟩ := carryDigit_spec hd hvalue
    rw [hn, List.length_eq_zero_iff] at hlen
    rw [hlen, List.append_nil] at hcarry hsame
    refine ⟨low ++ [d'], ?_, by simp, ?_, hsame⟩
    · change (carryDigit (low ++ d :: high) low.length).bind some = _
      rw [hcarry, Option.bind_some]
    · intro x hx
      rcases List.mem_append.mp hx with hx | hx
      · exact hlow x hx
      · rw [List.mem_singleton.mp hx]
        exact hd'
  | succ n ih =>
    obtain ⟨d', high', hcarry, hd', hlen, hsame, hnext⟩ := carryDigit_spec hd hvalue
    cases high' with
    | nil =>
      rw [← hlen, List.length_nil] at hn
      omega
    | cons up rest =>
      obtain ⟨hup, hrest⟩ := hnext hhigh up rest rfl
      rw [List.length_cons] at hlen
      have hlow' : ∀ x ∈ low ++ [d'], x < 36 := by
        intro x hx
        rcases List.mem_append.mp hx with hx | hx
        · exact hlow x hx
        · rw [List.mem_singleton.mp hx]
          exact hd'
      have hvalue' : Nat.ofDigits 36 ((low ++ [d']) ++ up :: rest) <
          36 ^ ((low ++ [d']).length + 1 + rest.length) := by
        rw [hsame, List.length_append, List.length_singleton]
        exact hvalue.trans_eq (by congr 1; omega)
      obtain ⟨num', hloop, hlen', hall, hval⟩ := ih hlow' hup hrest hvalue' (by omega)
      rw [List.length_append, List.length_singleton] at hloop hlen'
      refine ⟨num', ?_, by omega, hall, hval.trans hsame⟩
      rw [List.range'_succ, List.foldlM_cons, hcarry]
      exact hloop

/-- Counting one up. -/
theorem countDigit_spec (hnum : ∀ x ∈ num, x < 36)
    (hvalue : Nat.ofDigits 36 num + 1 < 36 ^ num.length) :
    ∃ num', countDigit num.length num = some num' ∧ num'.length = num.length ∧
      (∀ x ∈ num', x < 36) ∧ Nat.ofDigits 36 num' = Nat.ofDigits 36 num + 1 := by
  cases num with
  | nil => simp at hvalue
  | cons low high =>
    have hlow := hnum low List.mem_cons_self
    have hhigh : ∀ x ∈ high, x < 36 := fun x hx => hnum x (List.mem_cons_of_mem low hx)
    have hset : setDigit (low :: high) 0 (low + 1) = some ((low + 1) :: high) := by
      unfold setDigit
      rw [if_pos (by simp), List.set_cons_zero]
    have hup : Nat.ofDigits 36 ((low + 1) :: high) = Nat.ofDigits 36 (low :: high) + 1 := by
      rw [Nat.ofDigits_cons, Nat.ofDigits_cons]
      ring
    unfold countDigit
    rw [List.getElem?_cons_zero, Option.bind_some, hset, Option.bind_some]
    by_cases hfull : low + 1 = 36
    · rw [if_pos hfull]
      have hloop := @carryLoop_from [] high (low + 1) (by simp) hfull.le hhigh (by
        rw [List.nil_append, hup]
        exact hvalue.trans_eq (by rw [List.length_cons, List.length_nil]; congr 1; omega))
      obtain ⟨num', hloop, hlen, hall, hval⟩ := hloop
      refine ⟨num', ?_, ?_, hall, hval.trans hup⟩
      · unfold carryLoop
        rw [List.range_eq_range']
        exact hloop
      · rw [hlen, List.length_cons, List.length_nil]
        omega
    · rw [if_neg hfull]
      refine ⟨(low + 1) :: high, rfl, rfl, ?_, hup⟩
      intro x hx
      rcases List.mem_cons.mp hx with heq | hx
      · omega
      · exact hhigh x hx

/-- Counting `times` up, from any digits in range. -/
theorem countLoop_spec {times : Nat} (hnum : ∀ x ∈ num, x < 36)
    (hvalue : Nat.ofDigits 36 num + times < 36 ^ num.length) :
    ∃ num', countLoop num.length times num = some num' ∧ num'.length = num.length ∧
      (∀ x ∈ num', x < 36) ∧ Nat.ofDigits 36 num' = Nat.ofDigits 36 num + times := by
  induction times generalizing num with
  | zero => exact ⟨num, rfl, rfl, hnum, rfl⟩
  | succ times ih =>
    obtain ⟨next, hstep, hlen, hall, hval⟩ := countDigit_spec hnum (by omega)
    rw [← hlen] at hvalue
    obtain ⟨num', hloop, hlen', hall', hval'⟩ := ih hall (by omega)
    refine ⟨num', ?_, hlen'.trans hlen, hall', by omega⟩
    unfold countLoop
    rw [hstep, Option.bind_some, ← hlen]
    exact hloop

theorem mapM_of_forall {A B : Type} {f : A → Option B} {g : A → B} {l : List A}
    (h : ∀ a ∈ l, f a = some (g a)) : l.mapM f = some (l.map g) := by
  induction l with
  | nil => rfl
  | cons a l ih =>
    rw [List.mapM_cons, h a List.mem_cons_self, ih fun x hx => h x (List.mem_cons_of_mem a hx)]
    rfl

theorem writeLetters_eq (num : List Nat) :
    writeLetters num.length num = some (num.reverse.map ALPHABET) := by
  have hread : ∀ i ∈ List.range num.length,
      (num[num.length - 1 - i]?).map ALPHABET = some (ALPHABET (num.reverse.getD i 0)) := by
    intro i hi
    have hlt := List.mem_range.mp hi
    rw [List.getD_eq_getElem?_getD, List.getElem?_reverse hlt,
      List.getElem?_eq_getElem (by omega), Option.map_some, Option.getD_some]
  unfold writeLetters
  rw [mapM_of_forall hread]
  congr 1
  apply List.ext_getElem (by simp)
  intro i hi hi'
  rw [List.getElem_map, List.getElem_range, List.getElem_map, List.getD_eq_getElem]

/-- The name is the digits of `times` in letters, whatever digits an earlier call has left. -/
theorem createUUID_eq {times : Nat} (htimes : times < 36 ^ num.length) :
    ∃ num', createUUID num.length times num =
        some (Numerals.render ALPHABET 36 num.length times, num') ∧
      num'.length = num.length ∧ ∀ x ∈ num', x < 36 := by
  have hzero : Nat.ofDigits 36 (List.replicate num.length 0) = 0 := Nat.ofDigits_replicate_zero
  have hcleared : ∀ x ∈ List.replicate num.length 0, x < 36 := by
    intro x hx
    rw [List.eq_of_mem_replicate hx]
    omega
  obtain ⟨num', hloop, hlen, hall, hval⟩ := @countLoop_spec _ times hcleared (by
    rw [hzero, List.length_replicate, Nat.zero_add]
    exact htimes)
  rw [List.length_replicate] at hloop hlen
  rw [hzero, Nat.zero_add] at hval
  have hdigits : num' = Numerals.digits 36 num.length times := by
    have heq := Numerals.eq_digits hall
    rwa [hlen, hval] at heq
  refine ⟨num', ?_, hlen, hall⟩
  have hletters := writeLetters_eq num'
  rw [hlen] at hletters
  unfold createUUID
  rw [clearDigits_eq, Option.bind_some, hloop, Option.bind_some, hletters, Option.map_some,
    Numerals.render, ← hdigits]

end Loops

section Rendered

theorem ALPHABET_lt {d e : Nat} (hde : d < e) (he : e < 36) : ALPHABET d < ALPHABET e := by
  have hall : ∀ e < 36, ∀ d < e, ALPHABET d < ALPHABET e := by decide
  exact hall e he d hde

/-- The name that the other modules use. -/
theorem CreateUUID_render (times : Nat) :
    (CreateUUID times).val = Numerals.render ALPHABET 36 CONTAINER_ID_LENGTH times := by
  rfl

/-- Below `36 ^ CONTAINER_ID_LENGTH` the loop stays inside `container_id_num`, ends with digits below
36 and writes the digits of `times`, the highest first, so that names are ordered as the counter. -/
theorem container_names {times times' : Nat} (htimes : times < 36 ^ CONTAINER_ID_LENGTH)
    (htimes' : times' < 36 ^ CONTAINER_ID_LENGTH) {num : List Nat}
    (hnum : num.length = CONTAINER_ID_LENGTH) :
    (∃ num', createUUID CONTAINER_ID_LENGTH times num = some ((CreateUUID times).val, num') ∧
      num'.length = CONTAINER_ID_LENGTH ∧ ∀ d ∈ num', d < 36) ∧
    (CreateUUID times).val =
      ((List.range CONTAINER_ID_LENGTH).map fun i => ALPHABET (times / 36 ^ i % 36)).reverse ∧
    (CreateUUID times = CreateUUID times' → times = times') ∧
    ((CreateUUID times).val < (CreateUUID times').val ↔ times < times') := by
  have horder : ∀ {j k}, j < 36 ^ CONTAINER_ID_LENGTH → k < 36 ^ CONTAINER_ID_LENGTH →
      ((CreateUUID j).val < (CreateUUID k).val ↔ j < k) := by
    intro j k hj hk
    rw [CreateUUID_render, CreateUUID_render]
    exact Numerals.render_lt_iff (by omega) (fun _ _ => ALPHABET_lt) hj hk
  refine ⟨?_, rfl, ?_, horder htimes htimes'⟩
  · rw [CreateUUID_render]
    rw [← hnum] at htimes ⊢
    exact createUUID_eq htimes
  · intro heq
    rcases lt_trichotomy times times' with hlt | hsame | hlt
    · have hname := (horder htimes htimes').mpr hlt
      rw [heq] at hname
      exact absurd hname (List.lt_asymm hname)
    · exact hsame
    · have hname := (horder htimes' htimes).mpr hlt
      rw [heq] at hname
      exact absurd hname (List.lt_asymm hname)

/-- A carry through three digits. -/
theorem container_names_carry :
    (∃ num', createUUID CONTAINER_ID_LENGTH (36 ^ 3) [1, 2, 3, 4, 5, 6, 7] =
        some ((CreateUUID (36 ^ 3)).val, num')) ∧
      (CreateUUID (36 ^ 3)).val = [48, 48, 48, 49, 48, 48, 48] ∧
      (CreateUUID (36 ^ 3 - 1)).val < (CreateUUID (36 ^ 3)).val := by
  obtain ⟨⟨num', hnum', _⟩, _⟩ := @container_names (36 ^ 3) 0 (by decide) (by decide)
    [1, 2, 3, 4, 5, 6, 7] rfl
  have horder := (@container_names (36 ^ 3 - 1) (36 ^ 3) (by decide) (by decide)
    [1, 2, 3, 4, 5, 6, 7] rfl).2.2.2
  exact ⟨⟨num', hnum'⟩, by decide, horder.mpr (by decide)⟩

end Rendered

end ShieldReduce.Prototype
