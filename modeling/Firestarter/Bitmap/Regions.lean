import Firestarter.Lib.FlatMem
import Firestarter.Lib.Run

namespace Firestarter.Bitmap

open FlatMem

/-!
# Regions (`mechanisms/bitmap/bitmap.h`, `ltckpt_bitmap.c`)

The bitmap mechanism divides memory into regions of `LTCKPT_BITMAP_CLICK` bytes.  The memcpy
hook walks the regions of a range of addresses; the walk is the same for every bitmap type.

* `addrToRegion` — the region of an address (`ltckpt_addr_to_region`);
* `regionLoop` — the `while` loop of the memcpy hook, over any action on a region;
* `regionsOf` — the regions it walks, in order (`regionLoop_eq_foldl`, `mem_regionsOf`).
-/

/-- `ltckpt_addr_to_region`: `addr & ~(LTCKPT_BITMAP_CLICK - 1)`. -/
def addrToRegion (click addr : ℕ) : ℕ := addr - addr % click

/-- `ltckpt_mmap` with `LTCKPT_MAP_FIXED`: an anonymous mapping replaces what lay there and
    reads as zero. -/
def mapZero (m : Mem) (start size : ℕ) : Mem := fun x =>
  if start ≤ x ∧ x < start + size then 0 else m x

/-- What the instrumented program does to the mechanism: hook calls, writes of its own, and
    top-of-the-loop calls. -/
inductive BmEvent
  | storeHook (addr : ℕ)
  | memcpyHook (addr size : ℕ)
  | write (addr : ℕ) (bytes : List UInt8)
  | topOfTheLoop
  deriving DecidableEq, Repr

/-- `while ((char *)reg < end) { ...; reg++; }` with a bound on the number of iterations;
    pointers are `word` many. -/
def regionLoop {σ : Type*} (word click : ℕ) (visit : σ → ℕ → σ) : ℕ → σ → ℕ → ℕ → σ
  | 0, s, _, _ => s
  | n + 1, s, reg, last =>
    if reg < last then
      regionLoop word click visit n (visit s reg) ((reg + click) % word) last
    else s

/-- The regions that the walk over `size` bytes from `addr` on visits.  A walk over no bytes
    still visits the region of an address inside it. -/
def regionsOf (click addr size : ℕ) : List ℕ :=
  (List.range ((addr % click + size + (click - 1)) / click)).map
    fun k => addrToRegion click addr + click * k

/-- A mapping changes nothing outside it. -/
theorem mapZero_of_outside (m : Mem) {start size x : ℕ} (hx : x < start ∨ start + size ≤ x) :
    mapZero m start size x = m x := by
  rw [mapZero, if_neg (by omega)]

/-- The regions of a range are the aligned addresses from the region of its start on, up to
    its end. -/
theorem mem_regionsOf {click : ℕ} (hclick : 0 < click) {addr size r : ℕ} :
    r ∈ regionsOf click addr size ↔
      r % click = 0 ∧ addrToRegion click addr ≤ r ∧ r < addr + size := by
  have haddr : addrToRegion click addr + addr % click = addr :=
    Nat.sub_add_cancel (Nat.mod_le addr click)
  have hbase : addrToRegion click addr % click = 0 := by
    rw [addrToRegion]
    exact Nat.sub_mod_eq_zero_of_mod_eq (Nat.mod_mod addr click).symm
  -- the `k`-th region lies before the end exactly when `k` is below the bound
  have hbound : ∀ k, k < (addr % click + size + (click - 1)) / click ↔
      addrToRegion click addr + click * k < addr + size := by
    intro k
    rw [Nat.lt_iff_add_one_le, Nat.le_div_iff_mul_le hclick, Nat.add_mul, Nat.mul_comm k]
    omega
  rw [regionsOf, List.mem_map]
  constructor
  · rintro ⟨k, hk, rfl⟩
    refine ⟨?_, Nat.le_add_right _ _, (hbound k).mp (List.mem_range.mp hk)⟩
    rw [Nat.add_mul_mod_self_left, hbase]
  · rintro ⟨hr, hle, hlt⟩
    obtain ⟨k, hk⟩ : click ∣ r - addrToRegion click addr :=
      Nat.dvd_sub (Nat.dvd_of_mod_eq_zero hr) (Nat.dvd_of_mod_eq_zero hbase)
    have hr' : addrToRegion click addr + click * k = r := by omega
    exact ⟨k, List.mem_range.mpr ((hbound k).mpr (hr' ▸ hlt)), hr'⟩

/-- The loop from an aligned address visits the aligned addresses below `last` in order, as
    long as the address after the last one does not wrap. -/
theorem regionLoop_eq_foldl {σ : Type*} {word click : ℕ} (hclick : 0 < click) (visit : σ → ℕ → σ)
    {last : ℕ} (hword : last + click ≤ word) (n : ℕ) (s : σ) (reg : ℕ) (hn : last - reg ≤ n) :
    regionLoop word click visit n s reg last =
      ((List.range ((last - reg + (click - 1)) / click)).map (reg + click * ·)).foldl visit s := by
  induction n generalizing s reg with
  | zero =>
    have hzero : (last - reg + (click - 1)) / click = 0 := Nat.div_eq_of_lt (by omega)
    rw [hzero]
    rfl
  | succ n ih =>
    by_cases hlt : reg < last
    · have hnext : (reg + click) % word = reg + click := Nat.mod_eq_of_lt (by omega)
      have hcount : (last - reg + (click - 1)) / click =
          (last - (reg + click) + (click - 1)) / click + 1 := by
        by_cases hle : reg + click ≤ last
        · rw [show last - reg + (click - 1) = last - (reg + click) + (click - 1) + click by omega,
            Nat.add_div_right _ hclick]
        · rw [show last - (reg + click) + (click - 1) = click - 1 by omega,
            Nat.div_eq_of_lt (show click - 1 < click by omega),
            show last - reg + (click - 1) = (last - reg - 1) + click by omega,
            Nat.add_div_right _ hclick, Nat.div_eq_of_lt (by omega)]
      rw [regionLoop, if_pos hlt, hnext, ih (visit s reg) (reg + click) (by omega), hcount,
        List.range_succ_eq_map, List.map_cons, List.map_map, List.foldl_cons, Nat.mul_zero,
        Nat.add_zero]
      congr 2
      funext k
      show reg + click + click * k = reg + click * (k + 1)
      rw [Nat.mul_add, Nat.mul_one]
      omega
    · have hzero : (last - reg + (click - 1)) / click = 0 := Nat.div_eq_of_lt (by omega)
      rw [regionLoop, if_neg hlt, hzero]
      rfl

/-- What every visit keeps, the loop keeps. -/
theorem regionLoop_keeps {σ : Type*} {word click : ℕ} {visit : σ → ℕ → σ} {P : σ → Prop}
    (hvisit : ∀ s r, P s → P (visit s r)) (n : ℕ) (s : σ) (reg last : ℕ) (hs : P s) :
    P (regionLoop word click visit n s reg last) := by
  induction n generalizing s reg with
  | zero => exact hs
  | succ n ih =>
    rw [regionLoop]
    split_ifs
    · exact ih _ _ (hvisit s reg hs)
    · exact hs

/-- The walk of the memcpy hook visits `regionsOf`. -/
theorem regionLoop_regionsOf {σ : Type*} {word click : ℕ} (hclick : 0 < click)
    (visit : σ → ℕ → σ) {addr size : ℕ} (hword : addr + size + click ≤ word) (s : σ) :
    regionLoop word click visit (addr + size - addrToRegion click addr) s
        (addrToRegion click addr) (addr + size) =
      (regionsOf click addr size).foldl visit s := by
  have haddr : addrToRegion click addr + addr % click = addr :=
    Nat.sub_add_cancel (Nat.mod_le addr click)
  rw [regionLoop_eq_foldl hclick visit hword _ s _ le_rfl, regionsOf]
  congr 5
  omega

/-- A region that holds an address of a range is one of the range's regions. -/
theorem mem_regionsOf_of_overlap {click : ℕ} (hclick : 0 < click) {addr size r x : ℕ}
    (hr : r % click = 0) (hlo : r ≤ x) (hhi : x < r + click) (hax : addr ≤ x)
    (hx : x < addr + size) : r ∈ regionsOf click addr size := by
  refine (mem_regionsOf hclick).mpr ⟨hr, ?_, by omega⟩
  -- both are multiples of `click`, and `addr` lies before the end of `r`
  obtain ⟨j, hj⟩ : click ∣ r := Nat.dvd_of_mod_eq_zero hr
  have hdiv : addrToRegion click addr = click * (addr / click) := by
    have := Nat.div_add_mod addr click
    rw [addrToRegion]
    omega
  have hlt : addr / click < j + 1 := by
    rw [Nat.div_lt_iff_lt_mul hclick, Nat.mul_comm, Nat.mul_add, ← hj, Nat.mul_one]
    omega
  rw [hdiv, hj]
  exact Nat.mul_le_mul_left click (by omega)

/-- A write leaves a region alone that is not one of its range. -/
theorem read_write_of_not_mem_regionsOf {click : ℕ} (m : Mem) (hclick : 0 < click) {a r : ℕ}
    {bs : List UInt8} (hr : r % click = 0) (hmem : r ∉ regionsOf click a bs.length) :
    read (write m a bs) r click = read m r click := by
  refine read_congr fun i hi => write_of_outside _ _ _ ?_
  by_contra hin
  exact hmem (mem_regionsOf_of_overlap (x := r + i) hclick hr (by omega) (by omega) (by omega)
    (by omega))

end Firestarter.Bitmap
