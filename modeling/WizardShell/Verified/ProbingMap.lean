import WizardShell.Verified.Probing

/-!
# A linear-probing table is a map

Search, insertion and rehashing, each described by what it does to the map a
table denotes.

* `probe_hit`, `probe_miss` — where the search for a key stops.
* `terminates_iff` — the search ends exactly for the keys of the map and,
  while the table is not full, for the others.
* `store_spec`, `store_returns` — insertion is a point update of the map.
* `rehash_spec`, `rehash_returns` — copying the slots in order into an empty
  table of another capacity keeps the map and the number of occupied slots.
-/

namespace WizardShell.Verified.Probing

open Function

variable {K V : Type} {cap : Nat} {home : K → Nat} {slots : Slots K V}
  {m : K → Option V}

/-! ## The first slots of a table -/

theorem denotes_succ_none {n : Nat} (hden : Denotes n slots m)
    (hslot : slots n = none) : Denotes (n + 1) slots m := by
  intro k v
  rw [hden k v]
  constructor
  · rintro ⟨i, hi, h⟩
    exact ⟨i, by omega, h⟩
  · rintro ⟨i, hi, h⟩
    have hin : i ≠ n := by
      rintro rfl
      simp [hslot] at h
    exact ⟨i, by omega, h⟩

theorem occupied_succ (n : Nat) (slots : Slots K V) :
    occupied (n + 1) slots =
      occupied n slots + if (slots n).isSome then 1 else 0 := by
  rw [occupied, Finset.range_add_one, Finset.filter_insert]
  split
  · rw [Finset.card_insert_of_notMem (by simp), occupied]
  · rw [occupied, Nat.add_zero]

/-- In a table with distinct keys, the key of slot `n` does not occur below. -/
theorem WellPlaced.not_below (hwell : WellPlaced cap home slots) {n : Nat}
    (hn : n < cap) {k : K} {v : V} (hslot : slots n = some (k, v))
    (hden : Denotes n slots m) : m k = none := by
  cases hk : m k with
  | none => rfl
  | some w =>
      obtain ⟨i, hi, hentry⟩ := (hden k w).mp hk
      have hin : i = n := hwell.distinct (by omega) hn hentry hslot
      omega

/-- What the slots below `n` hold has been copied: the map of the new table is
the map of those slots, and as many slots are occupied. -/
structure Copied (cap' : Nat) (home' : K → Nat) (slots new : Slots K V)
    (n : Nat) : Prop where
  well : WellPlaced cap' home' new
  same : ∃ m, Denotes n slots m ∧ Denotes cap' new m
  count : occupied cap' new = occupied n slots

theorem copied_zero (cap' : Nat) (home' : K → Nat) (slots : Slots K V) :
    Copied cap' home' slots (fun _ => none) 0 where
  well := wellPlaced_empty cap' home'
  same := ⟨fun _ => none, by intro k v; simp, denotes_empty cap'⟩
  count := by simp [occupied]

/-! ## Counting occupied slots after a write -/

/-- Writing an empty slot adds one to the number of occupied slots. -/
theorem occupied_update_empty {i : Nat} (hi : i < cap) (hempty : slots i = none)
    (entry : K × V) :
    occupied cap (update slots i (some entry)) = occupied cap slots + 1 := by
  have hset : (Finset.range cap).filter
        (fun j => (update slots i (some entry) j).isSome) =
      insert i ((Finset.range cap).filter fun j => (slots j).isSome) := by
    ext j
    by_cases hj : j = i
    · subst hj
      simp [hi]
    · simp [hj]
  rw [occupied, hset, Finset.card_insert_of_notMem (by simp [hempty]), occupied]

/-- Writing an occupied slot leaves the number of occupied slots. -/
theorem occupied_update_occupied {i : Nat} {old : K × V}
    (hold : slots i = some old) (entry : K × V) :
    occupied cap (update slots i (some entry)) = occupied cap slots := by
  have hset : (Finset.range cap).filter
        (fun j => (update slots i (some entry) j).isSome) =
      (Finset.range cap).filter fun j => (slots j).isSome := by
    ext j
    by_cases hj : j = i
    · subst hj
      simp [hold]
    · simp [hj]
  rw [occupied, hset, occupied]

/-! ## The place of a key -/

/-- Slot `i` is the place for `k`: no other slot holds it and this one holds
nothing else, and the path from the home of `k` reaches it. -/
structure PlaceFor (cap : Nat) (home : K → Nat) (slots : Slots K V) (k : K) (i : Nat) :
    Prop where
  lt : i < cap
  only : ∀ {j w}, j < cap → slots j = some (k, w) → j = i
  free : ∀ {k' w}, slots i = some (k', w) → k' = k
  path : ∃ d, d < cap ∧ cyclic cap (home k) d = i ∧
    ∀ e, e < d → slots (cyclic cap (home k) e) ≠ none

/-- Writing a key at its place keeps the table well placed. -/
theorem PlaceFor.wellPlaced {k : K} {i : Nat} (h : PlaceFor cap home slots k i)
    (hwell : WellPlaced cap home slots) (v : V) :
    WellPlaced cap home (update slots i (some (k, v))) where
  distinct := by
    intro a b k' w x ha hb hka hkb
    by_cases hai : a = i
    · by_cases hbi : b = i
      · rw [hai, hbi]
      · rw [hai, update_self, Option.some.injEq, Prod.mk.injEq] at hka
        rw [update_of_ne hbi, ← hka.1] at hkb
        exact absurd (h.only hb hkb) hbi
    · rw [update_of_ne hai] at hka
      by_cases hbi : b = i
      · rw [hbi, update_self, Option.some.injEq, Prod.mk.injEq] at hkb
        rw [← hkb.1] at hka
        exact absurd (h.only ha hka) hai
      · rw [update_of_ne hbi] at hkb
        exact hwell.distinct ha hb hka hkb
  path := by
    intro a k' w ha hka
    -- A path of occupied slots stays one.
    have hkeep : ∀ {j}, slots j ≠ none → update slots i (some (k, v)) j ≠ none := by
      intro j hj
      by_cases hji : j = i
      · simp [hji]
      · rwa [update_of_ne hji]
    by_cases hai : a = i
    · rw [hai, update_self, Option.some.injEq, Prod.mk.injEq] at hka
      obtain ⟨d, hd, hcyc, hpath⟩ := h.path
      rw [hai, ← hka.1]
      exact ⟨d, hd, hcyc, fun e he => hkeep (hpath e he)⟩
    · rw [update_of_ne hai] at hka
      obtain ⟨d, hd, hcyc, hpath⟩ := hwell.path ha hka
      exact ⟨d, hd, hcyc, fun e he => hkeep (hpath e he)⟩

/-- The slot of a key of the map is its place. -/
theorem placeFor_slot (hwell : WellPlaced cap home slots) {k : K} {old : V} {i : Nat}
    (hi : i < cap) (hslot : slots i = some (k, old)) : PlaceFor cap home slots k i where
  lt := hi
  only hj hjk := hwell.distinct hj hi hjk hslot
  free h := by
    rw [hslot, Option.some.injEq, Prod.mk.injEq] at h
    exact h.1.symm
  path := hwell.path hi hslot

variable [DecidableEq K]

/-! ## Search -/

/-- The search for a key of the map stops at the key's slot. -/
theorem probe_hit (hwell : WellPlaced cap home slots)
    (hden : Denotes cap slots m) (hhome : ∀ k, home k < cap) {k : K} {v : V}
    {fuel i : Nat} (hk : m k = some v)
    (hret : probe cap slots k fuel (home k) = .ret i) :
    i < cap ∧ slots i = some (k, v) := by
  obtain ⟨d, _, hcyc, hstop, hfirst⟩ := (probe_eq_ret (hhome k)).mp hret
  obtain ⟨j, hj, hslot⟩ := (hden k v).mp hk
  obtain ⟨dj, hdj, hcycj, hpath⟩ := hwell.path hj hslot
  have hcap : 0 < cap := Nat.lt_of_le_of_lt (Nat.zero_le _) hj
  have hi : i < cap := hcyc ▸ cyclic_lt (home k) d hcap
  have hle : d ≤ dj := by
    by_contra hlt
    have hstopj : Stops slots k (cyclic cap (home k) dj) := by
      rw [hcycj]
      intro entry hentry
      rw [hslot] at hentry
      cases hentry
      rfl
    exact hfirst dj (by omega) hstopj
  -- The slot where the search stops is occupied, so it holds `k`, and `k` has
  -- only one slot.
  have hocc : slots i ≠ none := by
    rcases Nat.lt_or_eq_of_le hle with hlt | heq
    · exact hcyc ▸ hpath d hlt
    · subst heq
      rw [← hcyc, hcycj, hslot]
      simp
  obtain ⟨⟨k', w⟩, hentry⟩ := Option.ne_none_iff_exists'.mp hocc
  have hkey : k' = k := hstop _ hentry
  subst hkey
  have hij : i = j := hwell.distinct hi hj hentry hslot
  exact ⟨hi, hij ▸ hslot⟩

/-- The search for any other key stops at an empty slot. -/
theorem probe_miss (hden : Denotes cap slots m) (hhome : ∀ k, home k < cap)
    {k : K} {fuel i : Nat} (hk : m k = none)
    (hret : probe cap slots k fuel (home k) = .ret i) :
    i < cap ∧ slots i = none := by
  obtain ⟨d, _, hcyc, hstop, _⟩ := (probe_eq_ret (hhome k)).mp hret
  have hcap : 0 < cap := Nat.lt_of_le_of_lt (Nat.zero_le _) (hhome k)
  have hi : i < cap := hcyc ▸ cyclic_lt (home k) d hcap
  refine ⟨hi, ?_⟩
  by_contra hne
  exact hden.not_stops hk hi hne hstop

/-- Fuel for one round of the table finds a stopping slot of a key of the map,
and of every key while some slot is empty. -/
theorem probe_returns_of (hden : Denotes cap slots m)
    (hhome : ∀ k, home k < cap) {k : K} {fuel : Nat} (hfuel : cap ≤ fuel)
    (h : m k ≠ none ∨ occupied cap slots < cap) :
    ∃ i, i < cap ∧ probe cap slots k fuel (home k) = .ret i := by
  rcases h with hk | hroom
  · obtain ⟨v, hv⟩ := Option.ne_none_iff_exists'.mp hk
    obtain ⟨j, hj, hslot⟩ := (hden k v).mp hv
    refine probe_returns (hhome k) hj ?_ hfuel
    intro entry hentry
    rw [hslot] at hentry
    cases hentry
    rfl
  · obtain ⟨j, hj, hempty⟩ := exists_empty hroom
    refine probe_returns (hhome k) hj ?_ hfuel
    intro entry hentry
    simp [hempty] at hentry

/-- The search for a key ends exactly when the key is in the map or the table
is not full. -/
theorem terminates_iff (hden : Denotes cap slots m)
    (hhome : ∀ k, home k < cap) (k : K) :
    Outcome.Terminates (fun fuel => probe cap slots k fuel (home k)) ↔
      m k ≠ none ∨ occupied cap slots < cap := by
  constructor
  · rintro ⟨fuel, hfuel⟩
    by_contra hno
    push Not at hno
    refine hfuel (probe_outOfFuel (hhome k) (fun i hi => ?_) fuel)
    exact hden.not_stops hno.1 hi (ne_none_of_full hno.2 hi)
  · intro h
    obtain ⟨i, _, hret⟩ := probe_returns_of hden hhome (Nat.le_refl cap) h
    exact ⟨cap, by simp [hret]⟩

/-! ## Insertion -/

/-- Writing a key at its place is a point update of the map. -/
theorem PlaceFor.denotes {k : K} {i : Nat} (h : PlaceFor cap home slots k i)
    (hden : Denotes cap slots m) (v : V) :
    Denotes cap (update slots i (some (k, v))) (update m k (some v)) := by
  intro k' w
  by_cases hk : k' = k
  · subst hk
    rw [update_self]
    constructor
    · intro hval
      exact ⟨i, h.lt, by simpa using hval⟩
    · rintro ⟨j, hj, hjk⟩
      by_cases hji : j = i
      · simpa [hji] using hjk
      · rw [update_of_ne hji] at hjk
        exact absurd (h.only hj hjk) hji
  · rw [update_of_ne hk, hden k' w]
    refine exists_congr fun j => and_congr_right fun _ => ?_
    by_cases hji : j = i
    · have hold : slots i ≠ some (k', w) := fun hslot => hk (h.free hslot)
      simp [hji, hold, Ne.symm hk]
    · rw [update_of_ne hji]

/-- The place of a new key is the empty slot where the search for it stops. -/
theorem placeFor_empty (hden : Denotes cap slots m) (hhome : ∀ k, home k < cap) {k : K}
    (hk : m k = none) {fuel i : Nat} (hprobe : probe cap slots k fuel (home k) = .ret i) :
    PlaceFor cap home slots k i := by
  obtain ⟨hi, hempty⟩ := probe_miss hden hhome hk hprobe
  obtain ⟨d, _, hcyc, _, hfirst⟩ := (probe_eq_ret (hhome k)).mp hprobe
  have hpath : ∀ e, e < d → slots (cyclic cap (home k) e) ≠ none := by
    intro e he hnone
    exact hfirst e he (by simp [Stops, hnone])
  have hd : d < cap := by
    -- Some place before `cap` meets slot `i`, and the first stop is not later.
    obtain ⟨e, he, hecyc⟩ := exists_cyclic_eq (hhome k) hi
    by_contra hge
    exact hpath e (by omega) (by rw [hecyc, hempty])
  exact
    { lt := hi
      only := fun hj hjk => by simp [hden.get hj hjk] at hk
      free := fun h => by simp [hempty] at h
      path := ⟨d, hd, hcyc, hpath⟩ }

/-- Search for a key and write the pair where the search stops. -/
def store (cap : Nat) (home : K → Nat) (fuel : Nat) (slots : Slots K V)
    (k : K) (v : V) : Outcome (Slots K V) := do
  let i ← probe cap slots k fuel (home k)
  return update slots i (some (k, v))

/-- Storing is a point update of the map; it occupies one more slot exactly
when the key is new. -/
theorem store_spec (hwell : WellPlaced cap home slots)
    (hden : Denotes cap slots m) (hhome : ∀ k, home k < cap) {k : K} {v : V}
    {fuel : Nat} {slots' : Slots K V}
    (hret : store cap home fuel slots k v = .ret slots') :
    WellPlaced cap home slots' ∧ Denotes cap slots' (update m k (some v)) ∧
      occupied cap slots' = occupied cap slots + if m k = none then 1 else 0 := by
  obtain ⟨i, hprobe, hslots'⟩ := Outcome.bind_eq_ret.mp hret
  cases hslots'
  cases hk : m k with
  | none =>
      have hplace := placeFor_empty hden hhome hk hprobe
      obtain ⟨hi, hempty⟩ := probe_miss hden hhome hk hprobe
      exact ⟨hplace.wellPlaced hwell v, hplace.denotes hden v,
        by simpa using occupied_update_empty hi hempty (k, v)⟩
  | some old =>
      obtain ⟨hi, hslot⟩ := probe_hit hwell hden hhome hk hprobe
      have hplace := placeFor_slot hwell hi hslot
      exact ⟨hplace.wellPlaced hwell v, hplace.denotes hden v,
        by simpa using occupied_update_occupied hslot (k, v)⟩

/-- Storing returns for a key of the map, and for every key while some slot
is empty. -/
theorem store_returns (hden : Denotes cap slots m) (hhome : ∀ k, home k < cap)
    {k : K} (v : V) {fuel : Nat} (hfuel : cap ≤ fuel)
    (h : m k ≠ none ∨ occupied cap slots < cap) :
    ∃ slots', store cap home fuel slots k v = .ret slots' := by
  obtain ⟨i, _, hret⟩ := probe_returns_of hden hhome hfuel h
  exact ⟨update slots i (some (k, v)), by simp [store, hret]⟩

/-! ## Rehashing -/

/-- Copy slot `i` of an old table into a new one. -/
def copySlot (cap' : Nat) (home' : K → Nat) (fuel : Nat) (slots : Slots K V)
    (new : Slots K V) (i : Nat) : Outcome (Slots K V) :=
  match slots i with
  | none => return new
  | some (k, v) => store cap' home' fuel new k v

/-- Copy the first `n` slots of a table, in slot order, into an empty table of
capacity `cap'`. -/
def rehash (cap' : Nat) (home' : K → Nat) (fuel : Nat) (slots : Slots K V)
    (n : Nat) : Outcome (Slots K V) :=
  (List.range n).foldlM (copySlot cap' home' fuel slots) fun _ => none

theorem rehash_succ (cap' : Nat) (home' : K → Nat) (fuel : Nat)
    (slots : Slots K V) (n : Nat) :
    rehash cap' home' fuel slots (n + 1) =
      (rehash cap' home' fuel slots n >>= fun new =>
        copySlot cap' home' fuel slots new n) := by
  simp only [rehash, List.range_succ, List.foldlM_append, List.foldlM_cons,
    List.foldlM_nil]
  congr 1
  funext new
  cases copySlot cap' home' fuel slots new n <;> rfl

theorem denotes_succ_some {n : Nat} {k : K} {v : V} (hden : Denotes n slots m)
    (hslot : slots n = some (k, v)) (hk : m k = none) :
    Denotes (n + 1) slots (update m k (some v)) := by
  intro k' w
  by_cases hkk : k' = k
  · subst hkk
    rw [update_self]
    constructor
    · intro h
      cases h
      exact ⟨n, by omega, hslot⟩
    · rintro ⟨i, hi, h⟩
      by_cases hin : i = n
      · subst hin
        rw [hslot] at h
        cases h
        rfl
      · simp [hden.get (by omega) h] at hk
  · rw [update_of_ne hkk, hden k' w]
    constructor
    · rintro ⟨i, hi, h⟩
      exact ⟨i, by omega, h⟩
    · rintro ⟨i, hi, h⟩
      have hin : i ≠ n := by
        rintro rfl
        rw [hslot] at h
        cases h
        exact hkk rfl
      exact ⟨i, by omega, h⟩

section Copy

variable {cap' : Nat} {home' : K → Nat}

theorem Copied.step (hwell : WellPlaced cap home slots)
    (hhome' : ∀ k, home' k < cap') {n fuel : Nat} (hn : n < cap)
    {new new' : Slots K V} (h : Copied cap' home' slots new n)
    (hret : copySlot cap' home' fuel slots new n = .ret new') :
    Copied cap' home' slots new' (n + 1) := by
  obtain ⟨m, hold, hnew⟩ := h.same
  cases hslot : slots n with
  | none =>
      simp only [copySlot, hslot, Outcome.pure_eq, Outcome.ret.injEq] at hret
      subst hret
      exact
        { well := h.well
          same := ⟨m, denotes_succ_none hold hslot, hnew⟩
          count := by rw [occupied_succ, h.count]; simp [hslot] }
  | some entry =>
      obtain ⟨k, v⟩ := entry
      simp only [copySlot, hslot] at hret
      have hk : m k = none := hwell.not_below hn hslot hold
      obtain ⟨hw, hd, hc⟩ := store_spec h.well hnew hhome' hret
      exact
        { well := hw
          same := ⟨_, denotes_succ_some hold hslot hk, hd⟩
          count := by rw [occupied_succ, hc, h.count]; simp [hslot, hk] }

/-- Rehashing keeps the map and the number of occupied slots. -/
theorem rehash_copied (hwell : WellPlaced cap home slots)
    (hhome' : ∀ k, home' k < cap') {fuel n : Nat} (hn : n ≤ cap)
    {new : Slots K V} (hret : rehash cap' home' fuel slots n = .ret new) :
    Copied cap' home' slots new n := by
  induction n generalizing new with
  | zero =>
      cases hret
      exact copied_zero cap' home' slots
  | succ n ih =>
      rw [rehash_succ] at hret
      obtain ⟨mid, hmid, hlast⟩ := Outcome.bind_eq_ret.mp hret
      exact (ih (by omega) hmid).step hwell hhome' hn hlast

theorem rehash_spec (hwell : WellPlaced cap home slots)
    (hden : Denotes cap slots m) (hhome' : ∀ k, home' k < cap') {fuel : Nat}
    {new : Slots K V} (hret : rehash cap' home' fuel slots cap = .ret new) :
    WellPlaced cap' home' new ∧ Denotes cap' new m ∧
      occupied cap' new = occupied cap slots := by
  have h := rehash_copied hwell hhome' (Nat.le_refl cap) hret
  obtain ⟨m', hold, hnew⟩ := h.same
  rw [hden.unique hold]
  exact ⟨h.well, hnew, h.count⟩

/-- Rehashing into more slots returns: before each copy a slot is empty. -/
theorem rehash_returns (hwell : WellPlaced cap home slots)
    (hhome' : ∀ k, home' k < cap') {fuel n : Nat} (hn : n ≤ cap)
    (hgrow : cap < cap') (hfuel : cap' ≤ fuel) :
    ∃ new, rehash cap' home' fuel slots n = .ret new := by
  induction n with
  | zero => exact ⟨_, rfl⟩
  | succ n ih =>
      obtain ⟨mid, hmid⟩ := ih (by omega)
      have hcopied := rehash_copied hwell hhome' (by omega) hmid
      obtain ⟨m, _, hnew⟩ := hcopied.same
      have hroom : occupied cap' mid < cap' := by
        have hle := occupied_le n slots
        rw [hcopied.count]
        omega
      rw [rehash_succ, hmid, Outcome.ret_bind, copySlot]
      cases slots n with
      | none => exact ⟨mid, rfl⟩
      | some entry => exact store_returns hnew hhome' _ hfuel (.inr hroom)

end Copy

end WizardShell.Verified.Probing
