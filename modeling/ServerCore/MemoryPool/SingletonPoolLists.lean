import ServerCore.MemoryPool.SingletonPool

/-!
# Chunks that circulate between pools

The invariant keeps the blocks apart from the lists. Every pool knows the chain of its own blocks. The
list of an active thread holds chunks from the blocks of any pools, and ends with a sentinel, which is a
chunk of the thread's own or null. No chunk is at two places. A purge takes the blocks of one pool away,
so it keeps the invariant if the chunks of these blocks are on no other list.
-/

namespace ServerCore.MemoryPool

open Foundation

namespace SingletonPool

variable {ι : Type} {p : Platform} {requestedSize : ℕ} {s after : SingletonPool ι}
  {available : ι → List ℕ} {t u : ι} {chunk : ℕ}

/-- The size of all chunks. -/
def chunkSize (p : Platform) (requestedSize : ℕ) : ℕ :=
  max requestedSize p.ptrSize

/-- The chunks of all pools. -/
def Carved (p : Platform) (s : SingletonPool ι) (chunk : ℕ) : Prop :=
  ∃ t, chunk ∈ (s.pools t).chunks p

/-- The blocks of the pools. -/
structure Blocked (p : Platform) (requestedSize : ℕ) (s : SingletonPool ι) : Prop where
  chain : ∀ t, (s.pools t).BlockChain p s.heap
  allocSize : ∀ t, (s.pools t).allocSize = chunkSize p requestedSize
  apart : ∀ t u, t ≠ u → ∀ b ∈ (s.pools t).blocks, ∀ c ∈ (s.pools u).blocks, b.Apart c

/-- The links of the list lead from `head_` through these chunks to `tail_`. -/
structure Listed (p : Platform) (h : Heap) (storage : SegregatedStorage) (list : List ℕ) :
    Prop where
  head : storage.head = (list ++ [storage.tail]).headD 0
  linked : Linked (h.next p) (list ++ [storage.tail])

/-- What a thread has: the chunks that it can take, and a sentinel behind them. -/
structure Holds (p : Platform) (s : SingletonPool ι) (t : ι) (list : List ℕ) : Prop where
  listed : s.Active t → Listed p s.heap (s.pools t).storage list
  inactive : ¬ s.Active t → list = []
  carved : ∀ chunk ∈ list, s.Carved p chunk
  nodup : list.Nodup
  notLive : ∀ chunk ∈ list, chunk ∉ s.live
  sentinel : s.Active t → (s.pools t).storage.tail ≠ 0 →
    (s.pools t).storage.tail ∈ (s.pools t).chunks p ∧ (s.pools t).storage.tail ∉ s.live

/-- The invariant, with the chunks that each thread can take. -/
structure Circulating (p : Platform) (requestedSize : ℕ) (s : SingletonPool ι)
    (available : ι → List ℕ) : Prop where
  blocked : s.Blocked p requestedSize
  holds : ∀ t, s.Holds p t (available t)
  liveCarved : ∀ chunk ∈ s.live, s.Carved p chunk
  liveNodup : s.live.Nodup
  oneList : ∀ t u chunk, chunk ∈ available t → chunk ∈ available u → t = u
  reserved : ∀ t u, s.Active t → (s.pools t).storage.tail ≠ 0 →
    (s.pools t).storage.tail ∉ available u

/-! ## Where chunks lie -/

namespace Blocked

theorem chunk_bounds (hb : s.Blocked p requestedSize) (hchunk : s.Carved p chunk) :
    ∃ t, ∃ b ∈ (s.pools t).blocks, b ∈ s.heap.blocks ∧ b.base + p.ptrSize ≤ chunk ∧
      chunk + chunkSize p requestedSize ≤ b.base + b.size := by
  obtain ⟨t, hmem⟩ := hchunk
  obtain ⟨b, hblock, hlow, hhigh⟩ := (hb.chain t).chunk_bounds hmem
  rw [hb.allocSize t] at hhigh
  exact ⟨t, b, hblock, (hb.chain t).owned b hblock, hlow, hhigh⟩

theorem chunk_live (hb : s.Blocked p requestedSize) (hchunk : s.Carved p chunk) :
    s.heap.Live chunk p.ptrSize := by
  obtain ⟨t, hmem⟩ := hchunk
  exact (hb.chain t).chunk_live hmem (hb.chain t).alloc_ge

theorem chunk_lt (hb : s.Blocked p requestedSize) (hchunk : s.Carved p chunk) :
    0 < chunk ∧ chunk < p.sizeModulus := by
  obtain ⟨t, hmem⟩ := hchunk
  exact (hb.chain t).chunk_lt hmem

theorem chunks_apart (hb : s.Blocked p requestedSize) {other : ℕ} (hchunk : s.Carved p chunk)
    (hother : s.Carved p other) (hne : chunk ≠ other) :
    Apart chunk (chunkSize p requestedSize) other (chunkSize p requestedSize) := by
  obtain ⟨t, hmem⟩ := hchunk
  obtain ⟨u, hmem'⟩ := hother
  by_cases hthread : t = u
  · subst hthread
    rw [← hb.allocSize t]
    exact (hb.chain t).chunks_apart hmem hmem' hne
  · obtain ⟨b, hblock, hlow, hhigh⟩ := (hb.chain t).chunk_bounds hmem
    obtain ⟨c, hblock', hlow', hhigh'⟩ := (hb.chain u).chunk_bounds hmem'
    have hapart := hb.apart t u hthread b hblock c hblock'
    rw [hb.allocSize] at hhigh hhigh'
    unfold Block.Apart Foundation.Apart at hapart
    unfold Foundation.Apart
    omega

theorem chunk_apart_header (hb : s.Blocked p requestedSize) (hchunk : s.Carved p chunk) {b : Block}
    (hblock : b ∈ (s.pools u).blocks) :
    Apart b.base p.ptrSize chunk (chunkSize p requestedSize) := by
  obtain ⟨t, hmem⟩ := hchunk
  by_cases hthread : t = u
  · subst hthread
    rw [← hb.allocSize t]
    exact (hb.chain t).chunk_apart_header hmem hblock
  · obtain ⟨c, hother, hlow, hhigh⟩ := (hb.chain t).chunk_bounds hmem
    have hapart := hb.apart t u hthread c hother b hblock
    obtain ⟨⟨j, hj⟩, -⟩ := (hb.chain u).carved b hblock
    rw [hb.allocSize] at hhigh
    unfold Block.Apart Foundation.Apart at hapart
    unfold Foundation.Apart
    omega

end Blocked

section Reheaded

variable [DecidableEq ι]

/-- The pool of a thread with another `head_`. -/
def reheaded (s : SingletonPool ι) (t : ι) (head : ℕ) : Pool :=
  { s.pools t with storage := { (s.pools t).storage with head := head } }

theorem pools_reheaded (s : SingletonPool ι) (t u : ι) (head : ℕ) (heap : Heap) (live : List ℕ) :
    (s.install t (reheaded s t head) heap live).pools u =
      { s.pools u with storage :=
        { (s.pools u).storage with head := if u = t then head else (s.pools u).storage.head } } := by
  by_cases hu : u = t
  · rw [hu, install_pools_self, if_pos rfl]
    rfl
  · rw [install_pools_of_ne s hu, if_neg hu]

end Reheaded

/-- What happens elsewhere is no concern of a thread. -/
theorem Holds.frame {list : List ℕ} (hu : s.Holds p u list) (hpool : after.pools u = s.pools u)
    (hactive : after.Active u ↔ s.Active u)
    (hlinks : ∀ chunk ∈ list, after.heap.next p chunk = s.heap.next p chunk)
    (hcarved : ∀ chunk ∈ list, after.Carved p chunk) (hlive : ∀ chunk ∈ list, chunk ∉ after.live)
    (hsentinel : s.Active u → (s.pools u).storage.tail ≠ 0 →
      (s.pools u).storage.tail ∉ after.live) : after.Holds p u list where
  listed := by
    intro h
    have hlisted := hu.listed (hactive.mp h)
    rw [hpool]
    refine ⟨hlisted.head, hlisted.linked.congr ?_⟩
    rw [List.dropLast_concat]
    exact hlinks
  inactive := fun h ↦ hu.inactive (mt hactive.mpr h)
  carved := hcarved
  nodup := hu.nodup
  notLive := hlive
  sentinel := by
    intro h
    rw [hpool]
    intro htail
    exact ⟨(hu.sentinel (hactive.mp h) htail).1, hsentinel (hactive.mp h) htail⟩

namespace Circulating

/-- The claimed property of the chunks that are live. -/
theorem handedOutOnce (hs : s.Circulating p requestedSize available) (hdefined : s.fault = none) :
    s.HandedOutOnce p requestedSize where
  defined := hdefined
  inside := by
    intro chunk hlive
    obtain ⟨t, b, hblock, howned, hlow, hhigh⟩ :=
      hs.blocked.chunk_bounds (hs.liveCarved chunk hlive)
    exact ⟨t, b, hblock, howned, by omega, hhigh⟩
  apart := by
    apply hs.liveNodup.imp_of_mem
    intro chunk other hchunk hother hne
    exact hs.blocked.chunks_apart (hs.liveCarved _ hchunk) (hs.liveCarved _ hother) hne

/-- The list of an active thread as its links spell it. -/
theorem onFreeList (hs : s.Circulating p requestedSize available) (hactive : s.Active t)
    (hchunk : chunk ∈ available t) : s.OnFreeList p t chunk := by
  have hlisted := (hs.holds t).listed hactive
  have hnodup : (available t ++ [(s.pools t).storage.tail]).Nodup := by
    rw [List.nodup_append]
    refine ⟨(hs.holds t).nodup, List.nodup_singleton _, ?_⟩
    rintro other hother tail htail rfl
    obtain rfl := List.mem_singleton.mp htail
    have hpos := (hs.blocked.chunk_lt ((hs.holds t).carved _ hother)).1
    exact hs.reserved t t hactive (by omega) hother
  cases hlist : available t with
  | nil =>
    rw [hlist] at hchunk
    exact absurd hchunk List.not_mem_nil
  | cons first rest =>
    have hfirst : first ∈ available t := by
      rw [hlist]
      exact List.mem_cons_self
    have hpos := (hs.blocked.chunk_lt ((hs.holds t).carved first hfirst)).1
    have hhead := hlisted.head
    have hlinked := hlisted.linked
    rw [hlist, List.cons_append] at hhead hlinked hnodup
    rw [List.headD_cons] at hhead
    refine ⟨first :: (rest ++ [(s.pools t).storage.tail]), Or.inr ⟨by omega, hnodup, ?_, ?_⟩, ?_⟩
    · rw [← List.cons_append, List.getLast?_concat]
    · refine ⟨(rest ++ [(s.pools t).storage.tail]).length, ?_⟩
      rw [hhead]
      exact hlinked.eq_iterate
    · rw [← List.cons_append, ← hlist]
      exact List.mem_append_left _ hchunk

theorem tail_lt (hs : s.Circulating p requestedSize available) (hactive : s.Active t) :
    (s.pools t).storage.tail < p.sizeModulus := by
  by_cases htail : (s.pools t).storage.tail = 0
  · rw [htail, p.sizeModulus_eq]
    positivity
  · exact (hs.blocked.chunk_lt ⟨t, ((hs.holds t).sentinel hactive htail).1⟩).2

theorem head_lt (hs : s.Circulating p requestedSize available) (hactive : s.Active t) :
    (s.pools t).storage.head < p.sizeModulus := by
  rw [((hs.holds t).listed hactive).head]
  cases hlist : available t with
  | nil => exact hs.tail_lt hactive
  | cons first rest =>
    have hfirst : first ∈ available t := by
      rw [hlist]
      exact List.mem_cons_self
    exact (hs.blocked.chunk_lt ((hs.holds t).carved first hfirst)).2

/-! ## Writing into a chunk -/

/-- Memory changes inside one chunk that is on no list. -/
theorem rewrite (hs : s.Circulating p requestedSize available) (hcarved : s.Carved p chunk)
    (hnot : ∀ t, chunk ∉ available t) {heap : Heap} (hblocks : heap.blocks = s.heap.blocks)
    (hbytes : ∀ x, x < chunk ∨ chunk + chunkSize p requestedSize ≤ x →
      heap.bytes x = s.heap.bytes x) :
    ({ s with heap := heap } : SingletonPool ι).Circulating p requestedSize available := by
  have hroom : p.ptrSize ≤ chunkSize p requestedSize := le_max_right _ _
  exact { hs with
    blocked := { hs.blocked with
      chain := by
        intro t
        apply (hs.blocked.chain t).frame
        · intro b hb
          rw [hblocks]
          exact (hs.blocked.chain t).owned b hb
        · intro b hb
          have hapart := hs.blocked.chunk_apart_header hcarved hb
          unfold Foundation.Apart at hapart
          apply Heap.next_congr
          intro x hlow hhigh
          exact hbytes x (by omega) }
    holds := fun t ↦ { hs.holds t with
      listed := by
        intro hactive
        have hlisted := (hs.holds t).listed hactive
        refine ⟨hlisted.head, hlisted.linked.congr ?_⟩
        intro other hother
        rw [List.dropLast_concat] at hother
        have hne : other ≠ chunk := by
          rintro rfl
          exact hnot t hother
        have hapart := hs.blocked.chunks_apart ((hs.holds t).carved other hother) hcarved hne
        unfold Foundation.Apart at hapart
        apply Heap.next_congr
        intro x hlow hhigh
        exact hbytes x (by omega) } }

/-! ## A change at one thread -/

variable [DecidableEq ι]

/-- One thread gets another list, and the others keep theirs. -/
theorem change (hs : s.Circulating p requestedSize available) {list : List ℕ}
    (hblocked : after.Blocked p requestedSize) (hcarved : ∀ chunk ∈ after.live, after.Carved p chunk)
    (hlive : after.live.Nodup) (hpools : ∀ u, u ≠ t → after.pools u = s.pools u)
    (hactive : ∀ u, u ≠ t → (after.Active u ↔ s.Active u)) (hmine : after.Holds p t list)
    (hothers : ∀ u, u ≠ t → after.Holds p u (available u))
    (hapart : ∀ u, u ≠ t → ∀ chunk ∈ list, chunk ∉ available u)
    (hsentinel : after.Active t → (after.pools t).storage.tail ≠ 0 →
      (after.pools t).storage.tail ∉ list ∧
        ∀ u, u ≠ t → (after.pools t).storage.tail ∉ available u)
    (hsentinels : ∀ u, u ≠ t → s.Active u → (s.pools u).storage.tail ≠ 0 →
      (s.pools u).storage.tail ∉ list) :
    after.Circulating p requestedSize (Function.update available t list) where
  blocked := hblocked
  holds := by
    rw [Function.forall_update_iff available fun u list ↦ after.Holds p u list]
    exact ⟨hmine, hothers⟩
  liveCarved := hcarved
  liveNodup := hlive
  oneList := by
    intro u v chunk hu hv
    by_cases hut : u = t
    · by_cases hvt : v = t
      · rw [hut, hvt]
      · rw [hut, Function.update_self] at hu
        rw [Function.update_of_ne hvt] at hv
        exact absurd hv (hapart v hvt chunk hu)
    · rw [Function.update_of_ne hut] at hu
      by_cases hvt : v = t
      · rw [hvt, Function.update_self] at hv
        exact absurd hu (hapart u hut chunk hv)
      · rw [Function.update_of_ne hvt] at hv
        exact hs.oneList u v chunk hu hv
  reserved := by
    intro u v hu htail
    by_cases hut : u = t
    · rw [hut] at hu htail ⊢
      by_cases hvt : v = t
      · rw [hvt, Function.update_self]
        exact (hsentinel hu htail).1
      · rw [Function.update_of_ne hvt]
        exact (hsentinel hu htail).2 v hvt
    · rw [hactive u hut] at hu
      rw [hpools u hut] at htail ⊢
      by_cases hvt : v = t
      · rw [hvt, Function.update_self]
        exact hsentinels u hut hu htail
      · rw [Function.update_of_ne hvt]
        exact hs.reserved u v hu htail

/-! ## Taking chunks and giving them back -/

/-- The list of a thread changes: chunks move between it and the clients. -/
theorem relist (hs : s.Circulating p requestedSize available) {head : ℕ} {list live : List ℕ}
    (hlisted : s.Active t → Listed p s.heap ⟨head, (s.pools t).storage.tail⟩ list)
    (hinactive : ¬ s.Active t → list = []) (hlist : list.Nodup) (hlive : live.Nodup)
    (hdisjoint : ∀ chunk ∈ list, chunk ∉ live)
    (hfrom : ∀ chunk, chunk ∈ list ∨ chunk ∈ live → chunk ∈ available t ∨ chunk ∈ s.live) :
    (s.install t (reheaded s t head) s.heap live).Circulating p requestedSize
      (Function.update available t list) := by
  have hpools := pools_reheaded s t
  have hchunks (u : ι) : ((s.install t (reheaded s t head) s.heap live).pools u).chunks p =
      (s.pools u).chunks p := by
    rw [hpools]
    rfl
  have hcarved (chunk : ℕ) : (s.install t (reheaded s t head) s.heap live).Carved p chunk ↔
      s.Carved p chunk := exists_congr fun u ↦ by rw [hchunks u]
  have hactive (u : ι) : (s.install t (reheaded s t head) s.heap live).Active u ↔ s.Active u := by
    unfold Active Purged
    rw [hpools]
    rfl
  have hplace (chunk : ℕ) (hmem : chunk ∈ list ∨ chunk ∈ live) : s.Carved p chunk :=
    (hfrom chunk hmem).elim ((hs.holds t).carved chunk) (hs.liveCarved chunk)
  -- what another thread has is neither on the new list nor live now
  have hother (u : ι) (hu : u ≠ t) (chunk : ℕ) (hmem : chunk ∈ available u) :
      chunk ∉ list ∧ chunk ∉ live := by
    rw [← not_or]
    intro hmoved
    rcases hfrom chunk hmoved with hmine | hheld
    · exact hu (hs.oneList u t chunk hmem hmine)
    · exact (hs.holds u).notLive chunk hmem hheld
  have hsentinel (u : ι) (hu : s.Active u) (htail : (s.pools u).storage.tail ≠ 0) :
      (s.pools u).storage.tail ∉ list ∧ (s.pools u).storage.tail ∉ live := by
    rw [← not_or]
    intro hmoved
    rcases hfrom _ hmoved with hmine | hheld
    · exact hs.reserved u t hu htail hmine
    · exact ((hs.holds u).sentinel hu htail).2 hheld
  apply hs.change
  · exact {
      chain := by
        intro u
        rw [hpools]
        exact { hs.blocked.chain u with }
      allocSize := by
        intro u
        rw [hpools]
        exact hs.blocked.allocSize u
      apart := by
        intro u v huv
        rw [hpools, hpools]
        exact hs.blocked.apart u v huv }
  · exact fun chunk hmem ↦ (hcarved chunk).mpr (hplace chunk (Or.inr hmem))
  · exact hlive
  · exact fun u hu ↦ install_pools_of_ne s hu _ _ _
  · exact fun u _ ↦ hactive u
  · refine ⟨?_, ?_, ?_, hlist, hdisjoint, ?_⟩
    · rw [hactive, hpools, if_pos rfl]
      exact hlisted
    · rw [hactive]
      exact hinactive
    · exact fun chunk hmem ↦ (hcarved chunk).mpr (hplace chunk (Or.inl hmem))
    · rw [hactive, hchunks, hpools]
      intro hbusy htail
      exact ⟨((hs.holds t).sentinel hbusy htail).1, (hsentinel t hbusy htail).2⟩
  · intro u hu
    apply (hs.holds u).frame (install_pools_of_ne s hu _ _ _) (hactive u)
    · exact fun _ _ ↦ rfl
    · exact fun chunk hmem ↦ (hcarved chunk).mpr ((hs.holds u).carved chunk hmem)
    · exact fun chunk hmem ↦ (hother u hu chunk hmem).2
    · exact fun hbusy htail ↦ (hsentinel u hbusy htail).2
  · exact fun u hu chunk hmem hmem' ↦ (hother u hu chunk hmem').1 hmem
  · rw [hactive, hpools]
    exact fun hbusy htail ↦
      ⟨(hsentinel t hbusy htail).1, fun u _ ↦ hs.reserved t u hbusy htail⟩
  · exact fun u _ hbusy htail ↦ (hsentinel u hbusy htail).1

end Circulating

/-- Nothing has gone wrong, and the chunks circulate properly. -/
def Sound (p : Platform) (requestedSize : ℕ) (s : SingletonPool ι) : Prop :=
  s.fault = none ∧ ∃ available, s.Circulating p requestedSize available

variable [DecidableEq ι]

theorem Circulating.sound_attempt {call : SingletonPoolCall ι}
    (hafter : after.Circulating p requestedSize available) (hdefined : after.fault = none)
    (hperform : s.perform p call = .ok after) : (s.attempt p call).Sound p requestedSize := by
  rw [attempt, hperform]
  exact ⟨hdefined, available, hafter⟩

/-- `Malloc` takes the first chunk of the list. -/
theorem Circulating.pop (hs : s.Circulating p requestedSize available) (hdefined : s.fault = none)
    (hactive : s.Active t) (hne : (s.pools t).storage.head ≠ (s.pools t).storage.tail)
    (answer : Answer) : (s.attempt p (.malloc t answer)).Sound p requestedSize := by
  have hlisted := (hs.holds t).listed hactive
  cases hlist : available t with
  | nil =>
    have hhead := hlisted.head
    rw [hlist, List.nil_append, List.headD_cons] at hhead
    exact absurd hhead hne
  | cons first rest =>
    have hfirst : first ∈ available t := by
      rw [hlist]
      exact List.mem_cons_self
    have hrest (chunk : ℕ) (hmem : chunk ∈ rest) : chunk ∈ available t := by
      rw [hlist]
      exact List.mem_cons_of_mem _ hmem
    have hcarved := (hs.holds t).carved first hfirst
    have hpos := (hs.blocked.chunk_lt hcarved).1
    have hhead : (s.pools t).storage.head = first := by
      rw [hlisted.head, hlist, List.cons_append, List.headD_cons]
    have hlinked := hlisted.linked
    rw [hlist, List.cons_append] at hlinked
    have hnext : s.heap.next p first = (rest ++ [(s.pools t).storage.tail]).headD 0 := by
      cases rest with
      | nil => exact ((linked_cons_cons _ _ _ _).mp hlinked).1
      | cons second rest => exact ((linked_cons_cons _ _ _ _).mp hlinked).1
    have hnodup := (hs.holds t).nodup
    rw [hlist, List.nodup_cons] at hnodup
    have hmoved : (s.install t (reheaded s t (s.heap.next p first)) s.heap
        (first :: s.live)).Circulating p requestedSize (Function.update available t rest) := by
      apply hs.relist
      · exact fun _ ↦ ⟨hnext, hlinked.tail⟩
      · exact fun hidle ↦ absurd hactive hidle
      · exact hnodup.2
      · exact List.nodup_cons.mpr ⟨(hs.holds t).notLive first hfirst, hs.liveNodup⟩
      · intro chunk hmem
        rw [List.mem_cons, not_or]
        refine ⟨?_, (hs.holds t).notLive chunk (hrest chunk hmem)⟩
        rintro rfl
        exact hnodup.1 hmem
      · rintro chunk (hmem | hmem)
        · exact Or.inl (hrest chunk hmem)
        · rcases List.mem_cons.mp hmem with rfl | hlive
          · exact Or.inl hfirst
          · exact Or.inr hlive
    have hmalloc : (s.pools t).malloc p s.heap answer =
        .ok (first, s.heap, reheaded s t (s.heap.next p first)) := by
      have hempty : (s.pools t).storage.empty = false := by
        simpa [SegregatedStorage.empty] using hne
      rw [Pool.malloc, hempty, SegregatedStorage.malloc_eq_ok (hhead ▸ hs.blocked.chunk_live hcarved),
        hhead]
      rfl
    apply hmoved.sound_attempt hdefined
    simp only [perform, hmalloc, bind, Except.bind, pure, Except.pure,
      if_neg (show first ≠ 0 by omega)]

/-- `Free` puts a chunk in front of the list of the thread that frees it. -/
theorem Circulating.free (hs : s.Circulating p requestedSize available) (hdefined : s.fault = none)
    (hlive : chunk ∈ s.live) (t : ι) : (s.attempt p (.free t chunk)).Sound p requestedSize := by
  have hcarved := hs.liveCarved chunk hlive
  have hroom : p.ptrSize ≤ chunkSize p requestedSize := le_max_right _ _
  have hnot (u : ι) : chunk ∉ available u := fun hmem ↦ (hs.holds u).notLive chunk hmem hlive
  let heap := s.heap.setNext p chunk (s.pools t).storage.head
  have hwritten : ({ s with heap := heap } : SingletonPool ι).Circulating p requestedSize
      available := by
    apply hs.rewrite hcarved hnot (Heap.setNext_blocks _ _ _ _)
    intro x hx
    exact Heap.setNext_bytes_of_outside (by omega)
  have herased (other : ℕ) (hmem : other ∈ s.live.erase chunk) : other ∈ s.live :=
    List.mem_of_mem_erase hmem
  have hmoved : ∃ list, (SingletonPool.install { s with heap := heap } t (reheaded s t chunk) heap
      (s.live.erase chunk)).Circulating p requestedSize (Function.update available t list) := by
    by_cases hactive : s.Active t
    · have hlisted := (hwritten.holds t).listed hactive
      refine ⟨chunk :: available t, hwritten.relist ?_ ?_ ?_ ?_ ?_ ?_⟩
      · refine fun _ ↦ ⟨rfl, hlisted.linked.cons ?_⟩
        intro first hfirst
        have hhead : (s.pools t).storage.head = first := by
          rw [((hs.holds t).listed hactive).head, List.headD_eq_head?_getD, Option.mem_def.mp hfirst,
            Option.getD_some]
        rw [← hhead]
        exact Heap.next_setNext_self _ _ (hs.head_lt hactive)
      · exact fun hidle ↦ absurd hactive hidle
      · exact List.nodup_cons.mpr ⟨hnot t, (hs.holds t).nodup⟩
      · exact hs.liveNodup.erase chunk
      · intro other hmem
        rcases List.mem_cons.mp hmem with rfl | hmem
        · exact hs.liveNodup.not_mem_erase
        · exact fun hmem' ↦ (hs.holds t).notLive other hmem (herased other hmem')
      · rintro other (hmem | hmem)
        · rcases List.mem_cons.mp hmem with rfl | hmem
          · exact Or.inr hlive
          · exact Or.inl hmem
        · exact Or.inr (herased other hmem)
    · refine ⟨[], hwritten.relist ?_ ?_ ?_ ?_ ?_ ?_⟩
      · exact fun hbusy ↦ absurd hbusy hactive
      · exact fun _ ↦ rfl
      · exact List.nodup_nil
      · exact hs.liveNodup.erase chunk
      · exact fun other hmem ↦ absurd hmem List.not_mem_nil
      · rintro other (hmem | hmem)
        · exact absurd hmem List.not_mem_nil
        · exact Or.inr (herased other hmem)
  obtain ⟨list, hmoved⟩ := hmoved
  apply hmoved.sound_attempt hdefined
  have hfree : (s.pools t).free p s.heap chunk = .ok (heap, reheaded s t chunk) := by
    rw [Pool.free, SegregatedStorage.free_eq_ok (hs.blocked.chunk_live hcarved)]
    rfl
  simp only [perform, hfree, bind, Except.bind, pure, Except.pure]
  rfl

/-- A client writes a chunk that is live. -/
theorem Circulating.overwrite (hs : s.Circulating p requestedSize available)
    (hdefined : s.fault = none) (hlive : chunk ∈ s.live) {offset : ℕ} {data : List UInt8}
    (hroom : offset + data.length ≤ requestedSize) :
    (s.attempt p (.overwrite chunk offset data)).Sound p requestedSize := by
  have hsize : requestedSize ≤ chunkSize p requestedSize := le_max_left _ _
  have hwritten := hs.rewrite (hs.liveCarved chunk hlive)
    (fun t hmem ↦ (hs.holds t).notLive chunk hmem hlive)
    (show (⟨s.heap.bytes.write (chunk + offset) data, s.heap.blocks⟩ : Heap).blocks = _ from rfl)
    (by
      intro x hx
      apply ByteMemory.write_of_outside
      omega)
  exact hwritten.sound_attempt hdefined rfl

end SingletonPool

end ServerCore.MemoryPool
