import Mathlib

/-!
# Bounded maps in an array of slots

A map with room for `n` keys in an array of `n` slots: an assignment overwrites the slot
that has the key, and otherwise takes the first free slot; without one it fails. Slots are
never freed.

What the array holds is a function of the list of assignments (`Holds.put`): the first `n`
distinct keys in the order of their first assignment, each with the value of its last.
-/

namespace SlotTables

variable {κ ν : Type*} [DecidableEq κ] {n : Nat}

/-! ## Assignments -/

/-- The distinct keys, in the order of their first assignment. -/
def firstKeys (puts : List (κ × ν)) : List κ :=
  puts.foldl (fun keys put => if put.1 ∈ keys then keys else keys ++ [put.1]) []

/-- The value of the last assignment to a key. -/
def lastValue (puts : List (κ × ν)) (k : κ) : Option ν :=
  (puts.reverse.find? fun put => put.1 = k).map Prod.snd

variable {puts : List (κ × ν)} {k : κ} {v : ν}

@[simp] theorem firstKeys_nil : firstKeys ([] : List (κ × ν)) = [] := rfl

@[simp] theorem lastValue_nil : lastValue ([] : List (κ × ν)) k = none := rfl

theorem firstKeys_concat (puts : List (κ × ν)) (k : κ) (v : ν) :
    firstKeys (puts ++ [(k, v)]) =
      if k ∈ firstKeys puts then firstKeys puts else firstKeys puts ++ [k] := by
  rw [firstKeys, List.foldl_concat]
  rfl

theorem lastValue_concat (puts : List (κ × ν)) (k : κ) (v : ν) (k' : κ) :
    lastValue (puts ++ [(k, v)]) k' = if k = k' then some v else lastValue puts k' := by
  by_cases hk : k = k' <;> simp [lastValue, hk]

theorem nodup_firstKeys (puts : List (κ × ν)) : (firstKeys puts).Nodup := by
  induction puts using List.reverseRecOn with
  | nil => exact List.nodup_nil
  | append_singleton puts put ih =>
      rw [firstKeys_concat]
      split_ifs with hmem
      · exact ih
      · simpa [List.nodup_append, ih] using fun a ha => ne_of_mem_of_not_mem ha hmem

/-- A key has one index. -/
theorem getElem?_firstKeys_inj {i j : Nat} (hi : (firstKeys puts)[i]? = some k)
    (hj : (firstKeys puts)[j]? = some k) : i = j :=
  (List.getElem?_inj (List.getElem?_eq_some_iff.mp hi).1 (nodup_firstKeys puts)).mp
    (hi.trans hj.symm)

/-- The keys are those that a value was assigned to. -/
theorem mem_firstKeys_iff : k ∈ firstKeys puts ↔ ∃ v, lastValue puts k = some v := by
  induction puts using List.reverseRecOn with
  | nil => simp
  | append_singleton puts put ih =>
      obtain ⟨k', v⟩ := put
      rw [firstKeys_concat, lastValue_concat]
      by_cases hk : k' = k
      · subst hk
        by_cases hmem : k' ∈ firstKeys puts <;> simp [hmem]
      · by_cases hmem : k' ∈ firstKeys puts
        · simpa [hmem, hk] using ih
        · simpa [hmem, hk, Ne.symm hk] using ih

/-! ## Slots -/

abbrev Slots (n : Nat) (κ ν : Type*) := Fin n → Option (κ × ν)

namespace Slots

/-- The first slot that has the key. -/
def index (slots : Slots n κ ν) (k : κ) : Option (Fin n) :=
  (List.finRange n).find? fun i => (slots i).any fun entry => entry.1 = k

omit [DecidableEq κ] in
/-- The first slot without an entry. -/
def free (slots : Slots n κ ν) : Option (Fin n) :=
  (List.finRange n).find? fun i => (slots i).isNone

/-- `none` if no slot is left. -/
def put (slots : Slots n κ ν) (k : κ) (v : ν) : Option (Slots n κ ν) :=
  ((slots.index k).or slots.free).map fun i => Function.update slots i (some (k, v))

def get (slots : Slots n κ ν) (k : κ) : Option ν :=
  (slots.index k).bind fun i => (slots i).map Prod.snd

/-- The slots hold the first keys in order, each with its last value. -/
def Holds (slots : Slots n κ ν) (puts : List (κ × ν)) : Prop :=
  ∀ i : Fin n, slots i = (firstKeys puts)[i.val]?.bind fun k => (lastValue puts k).map (Prod.mk k)

variable {slots : Slots n κ ν} {i : Fin n}

theorem Holds.nil (h : ∀ i, slots i = none) : slots.Holds [] := by
  intro i
  simp [h i]

theorem Holds.slot_eq (h : slots.Holds puts) (hkey : (firstKeys puts)[i.val]? = some k) :
    slots i = (lastValue puts k).map (Prod.mk k) := by
  rw [h i, hkey, Option.bind_some]

theorem Holds.isNone_iff (h : slots.Holds puts) :
    (slots i).isNone = true ↔ (firstKeys puts).length ≤ i := by
  rcases hkey : (firstKeys puts)[i.val]? with _ | k
  · have hle := List.getElem?_eq_none_iff.mp hkey
    simp [h i, hle]
  · obtain ⟨v, hv⟩ := mem_firstKeys_iff.mp (List.mem_of_getElem? hkey)
    obtain ⟨hlt, -⟩ := List.getElem?_eq_some_iff.mp hkey
    simp [h.slot_eq hkey, hv, hlt]

theorem Holds.any_iff (h : slots.Holds puts) :
    ((slots i).any fun entry => entry.1 = k) = true ↔ (firstKeys puts)[i.val]? = some k := by
  rcases hkey : (firstKeys puts)[i.val]? with _ | k'
  · simp [h i, hkey]
  · obtain ⟨v, hv⟩ := mem_firstKeys_iff.mp (List.mem_of_getElem? hkey)
    simp [h.slot_eq hkey, hv]

theorem Holds.index_eq_some (h : slots.Holds puts) (hkey : (firstKeys puts)[i.val]? = some k) :
    slots.index k = some i := by
  rcases hindex : slots.index k with _ | j
  · exact absurd (h.any_iff.mpr hkey) (List.find?_eq_none.mp hindex i (List.mem_finRange i))
  · have hany := List.find?_some hindex
    have hj := h.any_iff.mp hany
    rw [Fin.ext (getElem?_firstKeys_inj hj hkey)]

theorem Holds.index_eq_none (h : slots.Holds puts) (hkey : k ∉ (firstKeys puts).take n) :
    slots.index k = none := by
  apply List.find?_eq_none.mpr
  intro i _ hany
  apply hkey
  rw [List.mem_take_iff_getElem]
  obtain ⟨hlt, heq⟩ := List.getElem?_eq_some_iff.mp (h.any_iff.mp hany)
  exact ⟨i, by omega, heq⟩

/-- The free slots are those behind the keys. -/
theorem Holds.free_eq (h : slots.Holds puts) :
    slots.free =
      if hroom : (firstKeys puts).length < n then some ⟨(firstKeys puts).length, hroom⟩
      else none := by
  split_ifs with hroom
  · rw [free, List.find?_eq_some_iff_getElem]
    refine ⟨h.isNone_iff.mpr (Nat.le_refl _), (firstKeys puts).length, by simpa using hroom, ?_⟩
    refine ⟨by simp, fun j hj => ?_⟩
    rw [Bool.not_eq_true', ← Bool.not_eq_true, h.isNone_iff]
    simpa using hj
  · apply List.find?_eq_none.mpr
    intro i _ hnone
    have hle := h.isNone_iff.mp hnone
    omega

/-- A slot that another key has, or none, holds what it did. -/
theorem Holds.frame (h : slots.Holds puts)
    (hkeys : (firstKeys (puts ++ [(k, v)]))[i.val]? = (firstKeys puts)[i.val]?)
    (hne : (firstKeys puts)[i.val]? ≠ some k) :
    slots i = (firstKeys (puts ++ [(k, v)]))[i.val]?.bind fun k' =>
      (lastValue (puts ++ [(k, v)]) k').map (Prod.mk k') := by
  rw [h i, hkeys]
  apply Option.bind_congr
  intro k' hk'
  have hkk' : k ≠ k' := fun heq => hne (heq ▸ hk')
  rw [lastValue_concat, if_neg hkk']

/-- An assignment to one of the first keys writes that key's slot. -/
theorem Holds.put_key (h : slots.Holds puts) (hkey : (firstKeys puts)[i.val]? = some k) :
    slots.put k v = some (Function.update slots i (some (k, v))) ∧
      Holds (Function.update slots i (some (k, v))) (puts ++ [(k, v)]) := by
  refine ⟨by rw [put, h.index_eq_some hkey, Option.some_or, Option.map_some], fun j => ?_⟩
  have hkeys := firstKeys_concat puts k v
  rw [if_pos (List.mem_of_getElem? hkey)] at hkeys
  by_cases hji : j = i
  · simp [hji, hkeys, hkey, lastValue_concat]
  · rw [Function.update_of_ne hji]
    apply h.frame (by rw [hkeys])
    intro hj
    exact hji (Fin.ext (getElem?_firstKeys_inj hj hkey))

/-- The first assignment to a key takes the slot behind the others. -/
theorem Holds.put_new (h : slots.Holds puts) (hnew : k ∉ firstKeys puts)
    (hroom : (firstKeys puts).length < n) :
    slots.put k v =
        some (Function.update slots ⟨(firstKeys puts).length, hroom⟩ (some (k, v))) ∧
      Holds (Function.update slots ⟨(firstKeys puts).length, hroom⟩ (some (k, v)))
        (puts ++ [(k, v)]) := by
  have hindex := h.index_eq_none fun hmem => hnew (List.mem_of_mem_take hmem)
  refine ⟨by rw [put, hindex, h.free_eq, dif_pos hroom, Option.none_or, Option.map_some], ?_⟩
  intro j
  have hkeys := firstKeys_concat puts k v
  rw [if_neg hnew] at hkeys
  by_cases hj : j = ⟨(firstKeys puts).length, hroom⟩
  · simp [hj, hkeys, lastValue_concat]
  · have hval : j.val ≠ (firstKeys puts).length := fun heq => hj (Fin.ext heq)
    rw [Function.update_of_ne hj]
    apply h.frame
    · rw [hkeys]
      rcases Nat.lt_or_gt_of_ne hval with hlt | hgt
      · exact List.getElem?_append_left hlt
      · rw [List.getElem?_eq_none (by simp; omega), List.getElem?_eq_none (by omega)]
    · exact fun hmem => hnew (List.mem_of_getElem? hmem)

/-- A key that comes after `n` others is refused. -/
theorem Holds.put_late (h : slots.Holds puts)
    (hlate : k ∉ (firstKeys (puts ++ [(k, v)])).take n) :
    slots.put k v = none ∧ slots.Holds (puts ++ [(k, v)]) := by
  have hkeys := firstKeys_concat puts k v
  have hfull : n ≤ (firstKeys puts).length := by
    by_contra hroom
    apply hlate
    by_cases hmem : k ∈ firstKeys puts
    · rw [hkeys, if_pos hmem, List.take_of_length_le (by omega)]
      exact hmem
    · rw [hkeys, if_neg hmem, List.take_of_length_le (by simp; omega)]
      exact List.mem_append_right _ List.mem_cons_self
  have hsame : (firstKeys (puts ++ [(k, v)])).take n = (firstKeys puts).take n := by
    rw [hkeys]
    split_ifs
    · rfl
    · exact List.take_append_of_le_length hfull
  rw [hsame] at hlate
  refine ⟨by rw [put, h.index_eq_none hlate, h.free_eq, dif_neg (by omega)]; rfl, fun i => ?_⟩
  apply h.frame
  · rw [← List.getElem?_take_of_lt i.isLt, hsame, List.getElem?_take_of_lt i.isLt]
  · intro hkey
    rw [← List.getElem?_take_of_lt i.isLt] at hkey
    exact hlate (List.mem_of_getElem? hkey)

/-- What an assignment does: it is kept if its key is one of the first `n`, and otherwise
    it fails. -/
theorem Holds.put (h : slots.Holds puts) (k : κ) (v : ν) :
    if k ∈ (firstKeys (puts ++ [(k, v)])).take n then
      ∃ slots', slots.put k v = some slots' ∧ slots'.Holds (puts ++ [(k, v)])
    else slots.put k v = none ∧ slots.Holds (puts ++ [(k, v)]) := by
  split_ifs with hfirst
  · by_cases hmem : k ∈ firstKeys puts
    · rw [firstKeys_concat, if_pos hmem] at hfirst
      obtain ⟨i, hi, hkey⟩ := List.mem_take_iff_getElem.mp hfirst
      have hkey' : (firstKeys puts)[i]? = some k :=
        List.getElem?_eq_some_iff.mpr ⟨by omega, hkey⟩
      have hi' : i < n := by omega
      exact ⟨_, h.put_key (i := ⟨i, hi'⟩) hkey'⟩
    · rw [firstKeys_concat, if_neg hmem] at hfirst
      have hroom : (firstKeys puts).length < n := by
        by_contra hfull
        rw [List.take_append_of_le_length (by omega)] at hfirst
        exact hmem (List.mem_of_mem_take hfirst)
      exact ⟨_, h.put_new hmem hroom⟩
  · exact h.put_late hfirst

/-- What is found under a key. -/
theorem Holds.get_eq (h : slots.Holds puts) (k : κ) :
    slots.get k = if k ∈ (firstKeys puts).take n then lastValue puts k else none := by
  split_ifs with hfirst
  · obtain ⟨i, hi, hkey⟩ := List.mem_take_iff_getElem.mp hfirst
    have hkey' : (firstKeys puts)[i]? = some k := List.getElem?_eq_some_iff.mpr ⟨by omega, hkey⟩
    have hi' : i < n := by omega
    rw [get, h.index_eq_some (i := ⟨i, hi'⟩) hkey', Option.bind_some, h.slot_eq hkey',
      Option.map_map]
    exact Option.map_id'
  · rw [get, h.index_eq_none hfirst, Option.bind_none]

end Slots

end SlotTables
