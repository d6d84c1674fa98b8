import NemoOS.Arp
import NemoOS.Lib.SlotTables

/-!
# What the ARP cache remembers

The eight entries of `arp_cache` are a table of slots, so that after any number of calls of
`arp_cache_add` a lookup finds exactly the first eight distinct addresses, each with the
hardware address it was added with last. Nothing is ever evicted: once eight addresses are
known, every other one is refused.
-/

namespace NemoOS

open SlotTables

namespace ArpCache

/-- The calls of `arp_cache_add`, one after the other. -/
def addAll (cache : ArpCache) (adds : List (Ip × Mac)) : ArpCache :=
  adds.foldl (fun cache add => (cache.arpCacheAdd add.1 add.2).2) cache

/-- The valid entries. -/
def slots (cache : ArpCache) : Slots ARP_CACHE_SIZE Ip Mac := fun i =>
  if (cache i).valid then some ((cache i).ip, (cache i).mac) else none

variable {cache : ArpCache} {adds : List (Ip × Mac)}

theorem indexOf_eq_index (cache : ArpCache) (ip : Ip) :
    cache.indexOf ip = cache.slots.index ip := by
  rw [indexOf, Slots.index]
  congr 1
  funext i
  rcases hvalid : (cache i).valid <;> simp [slots, hvalid]

theorem firstInvalid_eq_free (cache : ArpCache) : cache.firstInvalid = cache.slots.free := by
  rw [firstInvalid, Slots.free]
  congr 1
  funext i
  rcases hvalid : (cache i).valid <;> simp [slots, hvalid]

theorem slots_update (cache : ArpCache) (i : Fin ARP_CACHE_SIZE) (ip : Ip) (mac : Mac) :
    slots (Function.update cache i ⟨ip, mac, true⟩) =
      Function.update cache.slots i (some (ip, mac)) := by
  funext j
  by_cases hj : j = i <;> simp [slots, hj]

/-- `arp_cache_add` is an assignment in the table of slots. -/
theorem arpCacheAdd_slots (cache : ArpCache) (ip : Ip) (mac : Mac) :
    match cache.slots.put ip mac with
    | some slots' =>
        (cache.arpCacheAdd ip mac).1 = 0 ∧ slots (cache.arpCacheAdd ip mac).2 = slots'
    | none => cache.arpCacheAdd ip mac = (-1, cache) := by
  rw [Slots.put, ← indexOf_eq_index, ← firstInvalid_eq_free, arpCacheAdd]
  rcases hfound : cache.indexOf ip with _ | i
  · rcases cache.firstInvalid with _ | i
    · rfl
    · exact ⟨rfl, cache.slots_update i ip mac⟩
  · obtain ⟨hvalid, hip⟩ := indexOf_some hfound
    have hentry : { cache i with mac := mac } = (⟨ip, mac, true⟩ : ArpEntry) := by
      rw [← hvalid, ← hip]
    refine ⟨rfl, ?_⟩
    dsimp only at hentry ⊢
    rw [hentry, slots_update]

theorem arpCacheLookup_eq_get (cache : ArpCache) (ip : Ip) :
    cache.arpCacheLookup ip = cache.slots.get ip := by
  rw [arpCacheLookup, Slots.get, ← indexOf_eq_index]
  rcases hfound : cache.indexOf ip with _ | i
  · rfl
  · simp [slots, (indexOf_some hfound).1]

theorem slots_empty (hempty : ∀ i, (cache i).valid = false) (i : Fin ARP_CACHE_SIZE) :
    cache.slots i = none := by
  simp [slots, hempty i]

/-- One call of `arp_cache_add`. -/
theorem holds_arpCacheAdd (h : cache.slots.Holds adds) (ip : Ip) (mac : Mac) :
    slots (cache.arpCacheAdd ip mac).2 |>.Holds (adds ++ [(ip, mac)]) := by
  have hput := h.put ip mac
  have hadd := cache.arpCacheAdd_slots ip mac
  split_ifs at hput
  · obtain ⟨slots', heq, hholds⟩ := hput
    rw [heq] at hadd
    rw [hadd.2]
    exact hholds
  · rw [hput.1] at hadd
    rw [hadd]
    exact hput.2

theorem holds_addAll (hempty : ∀ i, (cache i).valid = false) (adds : List (Ip × Mac)) :
    (cache.addAll adds).slots.Holds adds := by
  induction adds using List.reverseRecOn with
  | nil => exact Slots.Holds.nil (slots_empty hempty)
  | append_singleton adds add ih =>
      rw [addAll, List.foldl_concat, ← addAll]
      exact holds_arpCacheAdd ih add.1 add.2

/-- What `arp_cache_add` returns after any calls, and when it changes nothing. -/
theorem arpCacheAdd_ret (h : cache.slots.Holds adds) (ip : Ip) (mac : Mac) :
    if ip ∈ (firstKeys (adds ++ [(ip, mac)])).take ARP_CACHE_SIZE then
      (cache.arpCacheAdd ip mac).1 = 0
    else cache.arpCacheAdd ip mac = (-1, cache) := by
  have hput := h.put ip mac
  have hadd := cache.arpCacheAdd_slots ip mac
  split_ifs at hput ⊢
  · obtain ⟨slots', heq, -⟩ := hput
    rw [heq] at hadd
    exact hadd.1
  · rw [hput.1] at hadd
    exact hadd

/-- **The cache is a map of eight addresses.** After any calls of `arp_cache_add` on an empty
    cache, a lookup finds the hardware address of the last call for an address if that is one
    of the first eight distinct addresses, and otherwise nothing. A call for a ninth or later
    address returns -1 and changes nothing, every other call returns 0. -/
theorem addAll_lookup (hempty : ∀ i, (cache i).valid = false) (adds : List (Ip × Mac)) (ip : Ip) :
    (cache.addAll adds).arpCacheLookup ip =
        (if ip ∈ (firstKeys adds).take ARP_CACHE_SIZE then lastValue adds ip else none) ∧
      ∀ mac,
        if ip ∈ (firstKeys (adds ++ [(ip, mac)])).take ARP_CACHE_SIZE then
          ((cache.addAll adds).arpCacheAdd ip mac).1 = 0
        else (cache.addAll adds).arpCacheAdd ip mac = (-1, cache.addAll adds) := by
  have hholds := holds_addAll hempty adds
  exact ⟨by rw [arpCacheLookup_eq_get, hholds.get_eq], arpCacheAdd_ret hholds ip⟩

/-- The cache as it is before the first call. -/
def emptyCache : ArpCache := fun _ => ⟨fun _ => 0, fun _ => 0, false⟩

/-- Nine addresses, and then the first one again. -/
def tenAdds : List (Ip × Mac) :=
  (List.range 9).map (fun k => (fun _ => UInt8.ofNat k, fun _ => UInt8.ofNat k)) ++
    [(fun _ => 0, fun _ => 100)]

/-- The first address has its second value, the ninth one is not there. -/
theorem addAll_lookup_tenAdds :
    (∀ i, (emptyCache i).valid = false) ∧
      (emptyCache.addAll tenAdds).arpCacheLookup (fun _ => 0) = some (fun _ => 100) ∧
      (emptyCache.addAll tenAdds).arpCacheLookup (fun _ => 8) = none := by
  refine ⟨fun _ => rfl, ?_, ?_⟩
  · rw [(addAll_lookup (fun _ => rfl) tenAdds _).1]
    decide
  · rw [(addAll_lookup (fun _ => rfl) tenAdds _).1]
    decide

end ArpCache

end NemoOS
