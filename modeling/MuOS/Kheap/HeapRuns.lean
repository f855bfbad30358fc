import MuOS.Kheap.HeapOps
import MuOS.Lib.Runs

namespace MuOS.Kheap.HeapRuns

open Lib Memory Runs Segments Mm Frames Ledger Alloc Tiling HeapOps Option
open List hiding span

/-- The heap, the live pointers with sizes, and the freed ones. -/
structure World where
  heap : Heap
  live : List (Nat × Nat)
  freed : List Nat

inductive Action
  | malloc (sz : Nat)
  | free (ptr : Nat)
  | store (addr : Nat) (v : BitVec 8)

def outside (h : Heap) (ptr : Nat) : Prop := ptr < h.heapStart + 16 ∨ h.heapStart + h.heapSize ≤ ptr

instance (h : Heap) (ptr : Nat) : Decidable (outside h ptr) := inferInstanceAs (Decidable (_ ∨ _))

def freeable (w : World) (ptr : Nat) : Prop :=
  ptr ∈ w.live.map Prod.fst ∨ ptr = 0 ∨ outside w.heap ptr ∨ ptr ∈ w.freed

instance (w : World) (ptr : Nat) : Decidable (freeable w ptr) := inferInstanceAs (Decidable (_ ∨ _))

/-- What the kernel may write: live payloads, and outside the heap. -/
def writable (w : World) (addr : Nat) : Prop :=
  (∃ e ∈ w.live, e.1 ≤ addr ∧ addr < e.1 + e.2) ∨ addr < w.heap.heapStart ∨
    w.heap.heapStart + w.heap.heapSize ≤ addr

instance (w : World) (addr : Nat) : Decidable (writable w addr) :=
  inferInstanceAs (Decidable (_ ∨ _))

/-- A freed pointer stays one until reused or its header overwritten. -/
def step (w : World) : Action → Option World
  | .malloc sz =>
    if sz < 4294967296 then
      (kmalloc w.heap sz).map (fun r =>
        if r.1 = 0 then { w with heap := r.2 }
        else ⟨r.2, (r.1, sz) :: w.live, w.freed.filter (fun q => decide (q ≠ r.1))⟩)
    else none
  | .free ptr =>
    if freeable w ptr then
      (kfree w.heap ptr).map (fun h =>
        ⟨h, w.live.filter (fun e => decide (e.1 ≠ ptr)),
          if ptr ∈ w.live.map Prod.fst then ptr :: w.freed else w.freed⟩)
    else none
  | .store addr v =>
    if writable w addr then
      some ⟨setMem w.heap (store w.heap.mem addr v), w.live,
        w.freed.filter (fun q => decide (addr < q - 16 ∨ q ≤ addr))⟩
    else none

structure Sound (w : World) (bs : List Seg) : Prop where
  formed : Formed w.heap bs
  live_used : ∀ e ∈ w.live, ∃ n, (e.1, ⟨n, true⟩) ∈ usedAt 16 w.heap.heapStart bs ∧ max 1 e.2 ≤ n
  used_live : ∀ e ∈ usedAt 16 w.heap.heapStart bs, e.1 ∈ w.live.map Prod.fst
  nodup : (w.live.map Prod.fst).Nodup
  freed : ∀ q ∈ w.freed, 16 ∣ q ∧ 16 ≤ q ∧ used w.heap.mem (q - 16) = 0#32

variable {w w' : World} {bs : List Seg} {ptr : Nat}

section

variable (hs : Sound w bs)
include hs

theorem malloc_sound {sz : Nat} (h : step w (.malloc sz) = some w') : ∃ bs', Sound w' bs' := by
  by_cases hsz : sz < 4294967296
  · obtain ⟨he, -⟩ | ⟨x, m, bs', n, he, hf, hx, hn, ⟨l, r, hu, hu'⟩, hst⟩ := kmalloc_spec hs.formed hsz
    · simp only [step, hsz, if_true, he, map_some, Option.some.injEq] at h
      exact ⟨bs, h ▸ hs⟩
    simp only [step, hsz, if_true, he, map_some, Option.some.injEq, Nat.pos_iff_ne_zero.mp hx,
      if_false] at h
    subst h
    have hnew := usedAt_fst_unique (by omega) hu'
    have hx' : x ∉ w.live.map Prod.fst := by
      intro hm
      obtain ⟨e, hel, rfl⟩ := mem_map.mp hm
      obtain ⟨k, hk, -⟩ := hs.live_used e hel
      rw [hu] at hk
      exact hnew _ hk rfl
    refine ⟨bs', hf, ?_, ?_, nodup_cons.mpr ⟨hx', hs.nodup⟩, ?_⟩
    · intro e he
      cases mem_cons.mp he with
      | inl hx =>
        subst hx
        exact ⟨n, by simp [setMem, hu'], hn⟩
      | inr he =>
        obtain ⟨k, hk, hle⟩ := hs.live_used e he
        rw [hu] at hk
        refine ⟨k, ?_, hle⟩
        simp only [setMem, hu']
        exact mem_append.mpr ((mem_append.mp hk).imp id (mem_cons_of_mem _))
    · intro e he
      simp only [setMem, hu', mem_append, mem_cons] at he
      obtain he | rfl | he := he
      · exact mem_cons_of_mem _ (hs.used_live e (by rw [hu]; exact mem_append_left _ he))
      · exact mem_cons_self
      · exact mem_cons_of_mem _ (hs.used_live e (by rw [hu]; exact mem_append_right _ he))
    · intro q hq
      obtain ⟨hq, hne⟩ := mem_filter.mp hq
      obtain ⟨hd, hle, hz⟩ := hs.freed q hq
      exact ⟨hd, hle, hst q hd hle (of_decide_eq_true hne) hz⟩
  · simp [step, hsz] at h

theorem free_live_sound (hp : ptr ∈ w.live.map Prod.fst) : ∃ h bs', kfree w.heap ptr = some h ∧
      Sound ⟨h, w.live.filter (fun e => decide (e.1 ≠ ptr)), ptr :: w.freed⟩ bs' := by
  obtain ⟨e, he, rfl⟩ := mem_map.mp hp
  obtain ⟨n, hn, hle⟩ := hs.live_used e he
  obtain ⟨l, r, rfl, hx⟩ := mem_layout_split (mem_usedAt.mp hn).1
  obtain ⟨m, hk, hf, hz, hst⟩ := kfree_spec (by omega) hs.formed
  obtain ⟨-, -, hu', hu⟩ := release_spec (h := 16) n hs.formed.coalesced
  have hnew := usedAt_fst_unique (by omega) hu
  have hdvd := hs.formed.layout_dvd (mem_usedAt.mp hn).1
  rw [← hx] at hk hu hu' hnew
  refine ⟨_, _, hk, hf, ?_, ?_, ?_, ?_⟩
  · intro e' he'
    obtain ⟨he', hne⟩ := mem_filter.mp he'
    obtain ⟨k, hk, hle⟩ := hs.live_used e' he'
    refine ⟨k, ?_, hle⟩
    simp only [setMem, hu']
    rw [hu] at hk
    simp only [mem_append, mem_cons] at hk ⊢
    obtain hk | hk | hk := hk
    · exact .inl hk
    · have hxe : e'.1 = e.1 := (Prod.mk.inj hk).1
      exact absurd hxe (of_decide_eq_true hne)
    · exact .inr hk
  · intro e' he'
    simp only [setMem, hu'] at he'
    have hne := hnew e' he'
    have hm : e' ∈ usedAt 16 w.heap.heapStart (l ++ ⟨n, true⟩ :: r) := by
      rw [hu]
      exact mem_append.mpr ((mem_append.mp he').imp id (mem_cons_of_mem _))
    obtain ⟨f, hf, hfe⟩ := mem_map.mp (hs.used_live e' hm)
    exact mem_map.mpr ⟨f, mem_filter.mpr ⟨hf, decide_eq_true (hfe ▸ hne)⟩, hfe⟩
  · exact hs.nodup.sublist (filter_sublist.map _)
  · intro q hq
    by_cases hqe : q = e.1
    · subst hqe
      refine ⟨hdvd, by omega, ?_⟩
      simp only [setMem, hx, Nat.add_sub_cancel, hz]
    · obtain ⟨hd, hle, hzq⟩ := hs.freed q ((mem_cons.mp hq).resolve_left hqe)
      exact ⟨hd, hle, (hst (q - 16) (by omega) (by omega)).trans hzq⟩

theorem free_ignored (hp : ptr = 0 ∨ outside w.heap ptr ∨ ptr ∈ w.freed) :
    kfree w.heap ptr = some w.heap := by
  obtain hp | hp | hp := hp
  · exact kfree_outside hs.formed (.inl hp)
  · exact kfree_outside hs.formed (.inr hp)
  · exact kfree_unused (hs.freed ptr hp).2.2

theorem free_sound (h : step w (.free ptr) = some w') : ∃ bs', Sound w' bs' := by
  by_cases hf : freeable w ptr
  · by_cases hl : ptr ∈ w.live.map Prod.fst
    · obtain ⟨k, bs', hk, hs'⟩ := free_live_sound hs hl
      simp only [step, hf, if_true, hk, map_some, hl, Option.some.injEq] at h
      exact ⟨bs', h ▸ hs'⟩
    have hk := free_ignored hs (hf.resolve_left hl)
    simp only [step, hf, if_true, hk, map_some, hl, if_false, Option.some.injEq] at h
    have hfl : w.live.filter (fun e => decide (e.1 ≠ ptr)) = w.live := by
      apply filter_eq_self.mpr
      intro e he
      exact decide_eq_true fun hx => hl (mem_map.mpr ⟨e, he, hx⟩)
    rw [hfl] at h
    exact ⟨bs, h ▸ hs⟩
  · simp [step, hf] at h

theorem store_sound {addr : Nat} {v : BitVec 8} (h : step w (.store addr v) = some w') :
    ∃ bs', Sound w' bs' := by
  by_cases hw : writable w addr
  · simp only [step, hw, if_true, Option.some.injEq] at h
    subst h
    have ht : Tiles (store w.heap.mem addr v) w.heap.heapStart bs := by
      obtain ⟨e, he, h1, h2⟩ | ho := hw
      · obtain ⟨n, hn, hle⟩ := hs.live_used e he
        exact hs.formed.tiles.store (mem_usedAt.mp hn).1 h1 (by simp only; omega) v
      · have hx := hs.formed.extent
        exact hs.formed.tiles.congr fun a h1 h2 => store_of_ne _ v (by omega)
    refine ⟨bs, hs.formed.change rfl ht hs.formed.sizes hs.formed.coalesced, hs.live_used,
      hs.used_live, hs.nodup, ?_⟩
    intro q hq
    obtain ⟨hq, hne⟩ := mem_filter.mp hq
    obtain ⟨hd, hle, hz⟩ := hs.freed q hq
    have ha := of_decide_eq_true hne
    refine ⟨hd, hle, ?_⟩
    rw [← hz]
    exact rd32_congr fun a h1 h2 => store_of_ne _ v (by omega)
  · simp [step, hw] at h

end

theorem step_sound {a : Action} (hs : ∃ bs, Sound w bs) (h : step w a = some w') :
    ∃ bs', Sound w' bs' := by
  obtain ⟨bs, hs⟩ := hs
  cases a with
  | malloc sz => exact malloc_sound hs h
  | free ptr => exact free_sound hs h
  | store addr v => exact store_sound hs h

theorem live_apart (hs : Sound w bs) :
    w.live.Pairwise (fun e f => e.1 + max 1 e.2 ≤ f.1 ∨ f.1 + max 1 f.2 ≤ e.1) := by
  have hn : w.live.Pairwise (fun e f => e.1 ≠ f.1) := pairwise_map.mp hs.nodup
  apply List.Pairwise.imp_of_mem _ hn
  intro e f he hf hne
  obtain ⟨n, hn, hle⟩ := hs.live_used e he
  obtain ⟨k, hk, hle'⟩ := hs.live_used f hf
  have ha := layout_apart (mem_usedAt.mp hn).1 (mem_usedAt.mp hk).1
  simp only at ha
  omega

theorem single_of_no_live (hs : Sound w bs) (hl : w.live = []) :
    bs = [⟨w.heap.heapSize - 16, false⟩] := by
  have hfree : ∀ b ∈ bs, b.used = false := by
    intro b hb
    obtain ⟨l, r, rfl⟩ := append_of_mem hb
    cases hu : b.used with
    | false => rfl
    | true =>
      have hm : (w.heap.heapStart + span 16 l + 16, b) ∈ usedAt 16 w.heap.heapStart (l ++ b :: r) :=
        mem_usedAt.mpr ⟨by simp [layout_append, layout], hu⟩
      have hx := hs.used_live _ hm
      simp [hl] at hx
  have hpos := hs.formed.size_pos
  rw [hs.formed.extent] at hpos ⊢
  exact eq_single_of_free hs.formed.coalesced hfree hpos

theorem init_sound {fr : Allocator} {held : Nat → Nat} {reserved : Nat → Prop}
    (hc : Consistent fr held reserved) {h : Heap} (h0 : h.heapStart = 0)
    (hr : kheapReady (kheapInit fr h).2 = true) :
    Sound ⟨(kheapInit fr h).2, [], []⟩ [⟨256 * 4096 - 16, false⟩] := by
  have hne : mmAllocPages fr 256 ≠ (0, fr) := by
    intro he
    simp [kheapInit, he, kheapReady, h0] at hr
  obtain ⟨hf, -⟩ := kheapInit_formed hc hne
  exact ⟨hf, fun e he => absurd he not_mem_nil, fun e he => absurd he not_mem_nil,
    nodup_nil, fun q hq => absurd hq not_mem_nil⟩

/-- Over every run the blocks tile the heap without free neighbours, live payloads are aligned,
large enough and disjoint, both calls return, and `kmalloc` fails only for want of a large enough
free block. -/
theorem kernel_heap_runs {fr : Allocator} {held : Nat → Nat} {reserved : Nat → Prop}
    (hc : Consistent fr held reserved) (h : Heap) (h0 : h.heapStart = 0)
    (hready : kheapReady (kheapInit fr h).2 = true) (as : List Action)
    (hrun : run step ⟨(kheapInit fr h).2, [], []⟩ as = some w) :
    ∃ bs, w.heap.heapSize = span 16 bs ∧ Tiles w.heap.mem w.heap.heapStart bs ∧ Coalesced bs ∧
      (∀ e ∈ w.live, 16 ∣ e.1 ∧ ∃ n, (e.1, ⟨n, true⟩) ∈ layout 16 w.heap.heapStart bs ∧
      max 1 e.2 ≤ n) ∧ w.live.Pairwise (fun e f => e.1 + max 1 e.2 ≤ f.1 ∨ f.1 + max 1 f.2 ≤ e.1) ∧
      (∀ sz, sz < 4294967296 → ∃ p h', kmalloc w.heap sz = some (p, h') ∧
        (p = 0 → ∀ b ∈ bs, b.used = false → b.size < max 1 sz)) ∧
      (∀ ptr, freeable w ptr → ∃ h', kfree w.heap ptr = some h') ∧
      (w.live = [] → bs = [⟨w.heap.heapSize - 16, false⟩]) := by
  obtain ⟨bs, hs⟩ :=
    run_invariant (fun _ _ _ hw hst => step_sound hw hst) ⟨_, init_sound hc h0 hready⟩ hrun
  refine ⟨bs, hs.formed.extent, hs.formed.tiles, hs.formed.coalesced, ?_, live_apart hs, ?_, ?_,
    single_of_no_live hs⟩
  · intro e he
    obtain ⟨n, hn, hle⟩ := hs.live_used e he
    have hm := (mem_usedAt.mp hn).1
    exact ⟨hs.formed.layout_dvd hm, n, hm, hle⟩
  · intro sz hsz
    obtain ⟨he, hb⟩ | ⟨x, m, bs', n, he, -, hx, -⟩ := kmalloc_spec hs.formed hsz
    · exact ⟨0, w.heap, he, fun _ => hb⟩
    · exact ⟨x, _, he, fun hz => by omega⟩
  · intro ptr hp
    by_cases hl : ptr ∈ w.live.map Prod.fst
    · obtain ⟨h', -, he, -⟩ := free_live_sound hs hl
      exact ⟨h', he⟩
    · exact ⟨_, free_ignored hs (hp.resolve_left hl)⟩

def bootFrames : Allocator := ⟨Function.update (fun _ => 0#32) 0 1#32, fun _ => 0, 300, 299⟩

theorem bootFrames_consistent : Consistent bootFrames (fun _ => 0) (fun f => f = 0) := by
  refine ⟨by decide, by decide +kernel, fun _ _ => rfl, ?_, fun _ => Nat.zero_le _, ?_,
    fun _ _ => rfl, rfl⟩
  · have hd : ∀ f < 300, bitmapTest bootFrames f = true ↔ 0 < 0 ∨ f = 0 := by decide +kernel
    exact hd
  · exact fun _ hf => absurd hf (Nat.lt_irrefl 0)

def noHeap : Heap := ⟨fun _ => 0#8, 0, 0⟩

def sampleRun : List Action :=
  [.malloc 24, .malloc 0, .malloc 100, .store 4112 7#8, .free 4160, .free 4112, .free 4112, .free 1,
    .malloc 4294967295, .malloc 40]

theorem kernel_heap_runs_sample :
    ∃ w, run step ⟨(kheapInit bootFrames noHeap).2, [], []⟩ sampleRun = some w ∧
    w.live = [(4112, 40), (4192, 100)] ∧ ∃ bs, Tiles w.heap.mem w.heap.heapStart bs ∧
    Coalesced bs := by
  have hl : (run step ⟨(kheapInit bootFrames noHeap).2, [], []⟩ sampleRun).map World.live =
      some [(4112, 40), (4192, 100)] := by decide +kernel
  obtain ⟨w, hw, hlive⟩ := map_eq_some_iff.mp hl
  obtain ⟨bs, -, ht, hc, -⟩ :=
    kernel_heap_runs bootFrames_consistent noHeap rfl (by decide +kernel) sampleRun hw
  exact ⟨w, hw, hlive, bs, ht, hc⟩

end MuOS.Kheap.HeapRuns
