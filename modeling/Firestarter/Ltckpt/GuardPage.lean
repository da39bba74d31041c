import Firestarter.Ltckpt.Writelog

namespace Firestarter.Ltckpt

/-!
# The guard page of the write log (`ltckpt_init_writelog`)

Nothing bounds `wl_position` outside MINIX: the log relies on a page without access rights that is
mapped behind it.  An append writes its address slot and then its region, 8 bytes each, and the
first access to the guard page ends the process.

* `guardPage` — the address that `ltckpt_init_writelog` maps the page at;
* `accessed` — the accesses to the log that a sequence of appends makes;
* `guardPage_cases` — where that page is, for a log at a page boundary;
* `stopsOverflow_iff` — the sequences of appends that it protects.
-/

/-- `PAGE_SIZE`. -/
def pageSize : ℕ := 4096

/-- `PAGE_SIZE * (((ret + WRITELOG_BYTES) / PAGE_SIZE) + 1)`, where `ret` is the mapped log. -/
def guardPage (ret : ℕ) : ℕ := ulong (pageSize * (ulong (ret + writelogBytes) / pageSize + 1))

/-- An access of 8 bytes at `a` meets the guard page. -/
def HitsGuard (L : Layout) (a : ℕ) : Prop :=
  guardPage L.wlData < a + 8 ∧ a < guardPage L.wlData + pageSize

instance (L : Layout) (a : ℕ) : Decidable (HitsGuard L a) := inferInstanceAs (Decidable (_ ∧ _))

/-- An access of 8 bytes at `a` stays in `[wl_data, wl_data + WRITELOG_BYTES)`. -/
def InsideLog (L : Layout) (a : ℕ) : Prop :=
  L.wlData ≤ a ∧ a + 8 ≤ L.wlData + writelogBytes

/-- The accesses to the log that the appends of `addrs` make, up to one to the guard page. -/
def accessed (L : Layout) : WlState → List ℕ → List ℕ
  | _, [] => []
  | st, addr :: addrs =>
    let addrSlot := L.wlData + st.wlPosition
    let region := L.wlData + (st.wlPosition + sizeofPtr)
    if HitsGuard L addrSlot then [addrSlot]
    else if HitsGuard L region then [addrSlot, region]
    else addrSlot :: region :: accessed L (ltckptWriteWl L st addr) addrs

/-- **What the guard page is for**: every access of the appends is inside the log, but for one
    that the guard page stops. -/
def StopsOverflow (L : Layout) (st : WlState) (addrs : List ℕ) : Prop :=
  ∀ a ∈ accessed L st addrs, InsideLog L a ∨ HitsGuard L a

/-! ### Where the guard page is -/

theorem writelogBytes_eq : writelogBytes = 16 * writelogMaxlen := by
  unfold writelogBytes
  simp only [writelogGranularity_eq, sizeofPtr_eq]
  omega

theorem pageSize_dvd_writelogBytes : writelogBytes % 4096 = 0 := by decide

/-- **The guard page leaves a gap**: it is mapped one page behind the end of the log (or, at the
    top of the address space, at 0). -/
theorem guardPage_cases {ret : ℕ} (haligned : ret % pageSize = 0)
    (hfits : ret + writelogBytes < 2 ^ 64) :
    guardPage ret = ret + writelogBytes + 4096 ∨ guardPage ret = 0 := by
  have hbytes := pageSize_dvd_writelogBytes
  unfold pageSize at haligned
  -- the sum is a multiple of the page size already, and the division is exact
  have hsum : pageSize * (ulong (ret + writelogBytes) / pageSize + 1) =
      ret + writelogBytes + 4096 := by
    rw [ulong_of_lt hfits]
    unfold pageSize
    omega
  rw [guardPage, hsum]
  rcases Nat.lt_or_ge (ret + writelogBytes + 4096) (2 ^ 64) with hlt | hge
  · exact .inl (ulong_of_lt hlt)
  · right
    unfold ulong
    omega

/-- The log and the page behind it do not meet the guard page. -/
theorem not_hitsGuard {L : Layout} (haligned : L.wlData % pageSize = 0) {a : ℕ}
    (hlo : L.wlData ≤ a) (hhi : a ≤ L.wlData + writelogBytes) : ¬ HitsGuard L a := by
  have hpos := L.wlData_pos
  unfold HitsGuard
  rcases guardPage_cases haligned L.wlData_fits with hguard | hguard
  · omega
  · unfold pageSize at haligned ⊢
    omega

/-! ### Sequences of appends -/

variable {L : Layout}

variable {st : WlState} {addrs : List ℕ}

/-- The accesses of a sequence of appends lie in its entries. -/
theorem accessed_bounds {a : ℕ} (h : a ∈ accessed L st addrs) :
    L.wlData + st.wlPosition ≤ a ∧ a + 8 ≤ L.wlData + st.wlPosition + 16 * addrs.length := by
  induction addrs generalizing st with
  | nil => exact absurd h List.not_mem_nil
  | cons addr addrs ih =>
    -- an access of the first append, or of a later one
    have hcases : a = L.wlData + st.wlPosition ∨ a = L.wlData + (st.wlPosition + 8) ∨
        a ∈ accessed L (ltckptWriteWl L st addr) addrs := by
      unfold accessed at h
      by_cases hslot : HitsGuard L (L.wlData + st.wlPosition)
      · rw [if_pos hslot] at h
        exact .inl (List.mem_singleton.mp h)
      · rw [if_neg hslot] at h
        by_cases hregion : HitsGuard L (L.wlData + (st.wlPosition + sizeofPtr))
        · rw [if_pos hregion] at h
          exact (List.mem_cons.mp h).imp_right fun h => .inl (List.mem_singleton.mp h)
        · rw [if_neg hregion] at h
          exact (List.mem_cons.mp h).imp_right List.mem_cons.mp
    rw [List.length_cons]
    rcases hcases with rfl | rfl | htail
    · omega
    · omega
    · have hbounds := ih htail
      rw [ltckptWriteWl_wlPosition] at hbounds
      omega

/-- An append is made if no access in front of it meets the guard page. -/
theorem mem_accessed {k : ℕ} (hk : k < addrs.length)
    (hclear : ∀ a, L.wlData + st.wlPosition ≤ a → a ≤ L.wlData + st.wlPosition + 16 * k →
      ¬ HitsGuard L a) : L.wlData + st.wlPosition + 16 * k ∈ accessed L st addrs := by
  induction addrs generalizing st k with
  | nil => exact absurd hk (Nat.not_lt_zero k)
  | cons addr addrs ih =>
    have hslot := hclear (L.wlData + st.wlPosition) (by omega) (by omega)
    rw [accessed, if_neg hslot]
    cases k with
    | zero => split_ifs <;> simp
    | succ k =>
      have hregion := hclear (L.wlData + (st.wlPosition + sizeofPtr))
        (by rw [sizeofPtr_eq]; omega) (by rw [sizeofPtr_eq]; omega)
      rw [if_neg hregion]
      apply List.mem_cons_of_mem
      apply List.mem_cons_of_mem
      have htail : L.wlData + (ltckptWriteWl L st addr).wlPosition + 16 * k ∈
          accessed L (ltckptWriteWl L st addr) addrs := by
        refine ih (by simpa using hk) fun a hlo hhi => hclear a ?_ ?_
        · rw [ltckptWriteWl_wlPosition] at hlo
          omega
        · rw [ltckptWriteWl_wlPosition] at hhi
          omega
      rwa [ltckptWriteWl_wlPosition, show L.wlData + (st.wlPosition + 16) + 16 * k =
        L.wlData + st.wlPosition + 16 * (k + 1) by omega] at htail

/-- Appends that fill the log do not leave it. -/
theorem stopsOverflow_of_le (hpos : st.wlPosition = 0) (hlen : addrs.length ≤ writelogMaxlen) :
    StopsOverflow L st addrs := by
  intro a ha
  obtain ⟨hlo, hhi⟩ := accessed_bounds ha
  refine .inl ⟨by omega, ?_⟩
  rw [writelogBytes_eq]
  omega

/-- The append behind a full log goes to the page in front of the guard page. -/
theorem not_stopsOverflow_of_lt (haligned : L.wlData % pageSize = 0) (hpos : st.wlPosition = 0)
    (hlen : writelogMaxlen < addrs.length) : ¬ StopsOverflow L st addrs := by
  intro hstops
  have hend : L.wlData + st.wlPosition + 16 * writelogMaxlen = L.wlData + writelogBytes := by
    rw [hpos, writelogBytes_eq, Nat.add_zero]
  have hmem : L.wlData + writelogBytes ∈ accessed L st addrs := by
    rw [← hend]
    refine mem_accessed hlen fun a hlo hhi => not_hitsGuard haligned (by omega) ?_
    rwa [hend] at hhi
  rcases hstops _ hmem with hinside | hguard
  · unfold InsideLog at hinside
    omega
  · exact not_hitsGuard haligned (Nat.le_add_right _ _) (Nat.le_refl _) hguard

/-- **The sequences that the guard page protects** are those that do not overflow the log. -/
theorem stopsOverflow_iff (L : Layout) (haligned : L.wlData % pageSize = 0) (mem : FlatMem.Mem)
    (ctx : Ctx) (addrs : List ℕ) :
    StopsOverflow L ⟨mem, 0, ctx⟩ addrs ↔ addrs.length ≤ writelogMaxlen := by
  constructor
  · intro hstops
    by_contra hlen
    exact not_stopsOverflow_of_lt haligned rfl (Nat.lt_of_not_le hlen) hstops
  · exact stopsOverflow_of_le rfl

/-- A log in the middle of the address space. -/
def middleLayout : Layout where
  wlData := 2 ^ 46
  wlDataVar := 0x6000
  wlPositionVar := 0x6008
  wlData_pos := by decide
  wlData_fits := by decide
  wlDataVar_fits := by decide
  wlPositionVar_fits := by decide

/-- Two appends to it stay inside the log. -/
theorem stopsOverflow_iff_two :
    StopsOverflow middleLayout ⟨fun _ => 0, 0, ⟨1, 0, 0, 0⟩⟩ [8192, 8200] :=
  (stopsOverflow_iff middleLayout (by decide) (fun _ => 0) ⟨1, 0, 0, 0⟩ [8192, 8200]).mpr
    (by decide)

/-- The first append to a full log is not stopped. -/
theorem append_behind_full_log :
    ¬ StopsOverflow middleLayout ⟨fun _ => 0, 0, ⟨1, 0, 0, 0⟩⟩
      (List.replicate (writelogMaxlen + 1) 8192) := by
  apply not_stopsOverflow_of_lt (by decide) rfl
  rw [List.length_replicate]
  exact Nat.lt_succ_self writelogMaxlen

end Firestarter.Ltckpt
