/-
  What `_add_reservation` and `_test_resv_overlap` do to the FUNCTION of time the map stands for.

  The map is right when its records are a chain of the window and show, at every time, the nodes available then
  (`availableAt`, `Faithful`).  `_add_reservation` looks ONLY AT THE NEXT RECORD for the place to cut where the
  reservation ends: one that runs over several records and ends inside the last of them loses its tail.  `Whole`
  is the condition that this does not happen.  A reservation that starts with the window leaves a first record
  that covers no time; `Shows` allows for it, `Faithful` does not.  `Shows.reserve` is the step lemma, and the two
  machines at the end inherit it for whole runs.
-/
import Slurmpp.Lib.Machine
import Slurmpp.Backfill.NodeSpace

namespace Slurmpp.Backfill

open Slurmpp Timeline List

variable {w : ℕ}

/-! ## Reservations and the availability they leave -/

/-- A job's claim on nodes: from `startTime` to `endReserve` it needs the set bits of `nodes`. -/
structure Resv (w : ℕ) where
  startTime : ℕ
  endReserve : ℕ
  nodes : BitVec w
  deriving DecidableEq, Repr

def Resv.Holds (resolution : ℕ) (c : Resv w) (t : ℕ) : Prop :=
  roundDown resolution c.startTime ≤ t ∧ t < roundDown resolution c.endReserve

instance (resolution : ℕ) (c : Resv w) (t : ℕ) : Decidable (c.Holds resolution t) :=
  inferInstanceAs (Decidable (_ ∧ _))

/-- The nodes available at `t`: the initial ones, less those of the reservations holding at
    `t`. -/
def availableAt (resolution : ℕ) (init : BitVec w) (made : List (Resv w)) (t : ℕ) : BitVec w :=
  (made.filter fun c => c.Holds resolution t).foldl (fun b c => b &&& ~~~c.nodes) init

/-- The map together with the reservations made so far (the latter exist only in the proof). -/
structure Plan (w : ℕ) where
  nodeSpace : NodeSpace w
  made : List (Resv w)
  deriving DecidableEq, Repr

/-- The map `_attempt_backfill` starts from: one record over the whole window. -/
def initPlan (b e : ℕ) (init : BitVec w) : Plan w := ⟨[⟨b, e, init, 0⟩], []⟩

/-- The map is a chain of non-empty records over the window `[b, e)` and shows what is available
    when. -/
def Faithful (resolution b e : ℕ) (init : BitVec w) (p : Plan w) : Prop :=
  Chain b e (segments p.nodeSpace) ∧
  Follows b (availableAt resolution init p.made) (segments p.nodeSpace)

/-- The weaker form: the first record, which starts with the window, may end before it begins;
    the records after it are a chain from where it ends. -/
def Shows (resolution b e : ℕ) (init : BitVec w) (p : Plan w) : Prop :=
  ∃ r l, segments p.nodeSpace = r :: l ∧ r.lo = b ∧ Chain r.hi e l ∧
    Follows b (availableAt resolution init p.made) (r :: l)

theorem availableAt_append (resolution : ℕ) (init : BitVec w) (made : List (Resv w)) (c : Resv w) (t : ℕ) :
    availableAt resolution init (made ++ [c]) t =
      if c.Holds resolution t then availableAt resolution init made t &&& ~~~c.nodes
      else availableAt resolution init made t := by
  unfold availableAt
  rw [filter_append, foldl_append]
  by_cases h : c.Holds resolution t
  · simp [h]
  · simp [h]

theorem getLsbD_availableAt (resolution : ℕ) (init : BitVec w) (i t : ℕ) (hi : i < w) :
    ∀ made : List (Resv w), (availableAt resolution init made t).getLsbD i = true ↔
      init.getLsbD i = true ∧ ∀ c ∈ made, c.Holds resolution t → c.nodes.getLsbD i = false := by
  intro made
  induction made using reverseRecOn with
  | nil => simp [availableAt]
  | append_singleton made c ih =>
    rw [availableAt_append, forall_mem_append, forall_mem_singleton, ← and_assoc, ← ih]
    by_cases h : c.Holds resolution t
    · rw [if_pos h, BitVec.getLsbD_and, BitVec.getLsbD_not, Bool.and_eq_true]
      simp [hi, h]
    · rw [if_neg h]
      exact ⟨fun h1 => ⟨h1, (absurd · h)⟩, And.left⟩

theorem roundDown_le (resolution t : ℕ) : roundDown resolution t ≤ t := Nat.div_mul_le_self t _

variable {resolution s e hi b : ℕ}

theorem lt_of_roundDown_lt {t : ℕ}
    (h : roundDown resolution s < roundDown resolution t) : s < roundDown resolution t := by
  unfold roundDown at h ⊢
  by_contra hle
  have hdiv : t / resolution ≤ s / resolution := by
    have := Nat.div_le_div_right (c := resolution) (not_lt.mp hle)
    rcases Nat.eq_zero_or_pos resolution with h0 | hpos
    · subst h0; simp at h
    · rwa [Nat.mul_div_cancel _ hpos] at this
  exact absurd h (not_lt.mpr (Nat.mul_le_mul_right _ hdiv))

/-! ## Where the reservation may end -/

/-- The end `e` of a reservation starting at `s` is found by the code: it lies beyond the map,
    or a record already ends there, or the record holding `s` reaches at least to `e`. -/
def EndsWell (s e : ℕ) (l : List (Seg ℕ (BitVec w))) : Prop :=
  (∀ r ∈ l, r.hi ≤ e) ∨ (∃ r ∈ l, r.hi = e) ∨ ∀ r ∈ l, ¬ (s < r.hi ∧ r.hi < e)

instance (s e : ℕ) (l : List (Seg ℕ (BitVec w))) : Decidable (EndsWell s e l) :=
  inferInstanceAs (Decidable (_ ∨ _ ∨ _))

/-- The reservation is recorded whole: rounded, it is not empty and its end is found. -/
def Whole (resolution : ℕ) (ns : NodeSpace w) (c : Resv w) : Prop :=
  roundDown resolution c.startTime < roundDown resolution c.endReserve ∧
  EndsWell (roundDown resolution c.startTime) (roundDown resolution c.endReserve) (segments ns)

instance (resolution : ℕ) (ns : NodeSpace w) (c : Resv w) : Decidable (Whole resolution ns c) :=
  inferInstanceAs (Decidable (_ ∧ _))

variable {l : List (Seg ℕ (BitVec w))} {r : Seg ℕ (BitVec w)}

theorem EndsWell.tail (hr : r.hi < e) (h : EndsWell s e (r :: l)) : EndsWell s e l := by
  rcases h with h | ⟨u, hu, hue⟩ | h
  · exact Or.inl (forall_mem_cons.1 h).2
  · rcases mem_cons.mp hu with rfl | hu
    · omega
    · exact Or.inr (Or.inl ⟨u, hu, hue⟩)
  · exact Or.inr (Or.inr (forall_mem_cons.1 h).2)

theorem EndsWell.boundary (hc : Chain s hi (r :: l)) (hre : r.hi ≤ e) (h : EndsWell s e (r :: l)) :
    Boundary e (r :: l) := by
  rcases h with h | ⟨u, hu, rfl⟩ | h
  · intro u hu hlt
    have := h u hu
    omega
  · exact hc.boundary_hi u hu
  · have hsr : s < r.hi := hc.1 ▸ hc.2.1
    have hnot := h r mem_cons_self
    have heq : r.hi = e := by omega
    exact heq ▸ hc.boundary_hi r mem_cons_self

theorem insertEndSegs_eq_cut (hc : Chain s hi l)
    (hse : s < e) (h : EndsWell s e l) : insertEndSegs e l = cut e l := by
  cases l with
  | nil => rfl
  | cons r l =>
    have hlo : r.lo = s := hc.1
    rw [insertEndSegs]
    by_cases he : e < r.hi
    · rw [if_pos he, cut, if_pos ⟨by omega, he⟩]
    · rw [if_neg he, cut_eq_self (h.boundary hc (by omega))]

/-- **The first loop makes the two cuts**, by induction on the records before the start. -/
theorem placeSegs_eq_cut (hse : s < e) :
    ∀ {l : List (Seg ℕ (BitVec w))} {lo : ℕ}, Chain lo hi l → lo < s → EndsWell s e l →
    placeSegs s e l = cut e (cut s l) := by
  intro l
  induction l with
  | nil => intro lo _ _ _; rfl
  | cons r l ih =>
    intro lo hc hlo h
    obtain ⟨hrlo, hrlt, hrest⟩ := hc
    rw [placeSegs]
    by_cases hs : s < r.hi
    · -- the record holding `s`: the part after `s` is a chain again, starting at `s`
      have hc' : Chain s hi (⟨s, r.hi, r.val⟩ :: l) := ⟨rfl, hs, hrest⟩
      have h' : EndsWell s e (⟨s, r.hi, r.val⟩ :: l) := by
        simpa only [EndsWell, mem_cons, forall_eq_or_imp, exists_eq_or_imp] using h
      have hcs : cut s (r :: l) = ⟨r.lo, s, r.val⟩ :: ⟨s, r.hi, r.val⟩ :: l := by
        rw [cut, if_pos ⟨by omega, hs⟩]
      have hce : ∀ m, cut e ((⟨r.lo, s, r.val⟩ : Seg ℕ (BitVec w)) :: m) = ⟨r.lo, s, r.val⟩ :: cut e m := fun m => by
        rw [cut, if_neg (fun hlt => absurd hlt.2 (not_lt.mpr hse.le))]
      rw [if_pos hs, insertEndSegs_eq_cut hc' hse h', hcs, hce]
    · rw [if_neg hs]
      have hcut : cut s (r :: l) = r :: cut s l := by rw [cut, if_neg (by omega)]
      have hcut' : ∀ m, cut e (r :: m) = r :: cut e m := fun m => by rw [cut, if_neg (by omega)]
      have ht : EndsWell s e l := h.tail (by omega)
      by_cases heq : r.hi = s
      · -- a record ends at `s` already
        have hb : Boundary s l := by
          intro u hu hlt
          have := (hrest.mem_bounds u hu).1
          omega
        rw [if_pos heq, hcut, hcut', cut_eq_self hb, insertEndSegs_eq_cut (heq ▸ hrest) hse ht]
      · rw [if_neg heq, hcut, hcut', ih hrest (by omega) ht]

/-- **The second loop paints**: past `e` there is nothing left inside the reservation. -/
theorem maskSegs_eq_paint {mask : BitVec w} :
    ∀ {l : List (Seg ℕ (BitVec w))} {lo : ℕ}, Chain lo hi l →
    maskSegs s e mask l = paint s e (fun v => v &&& mask) l := by
  intro l
  induction l with
  | nil => intro lo _; rfl
  | cons r l ih =>
    intro lo hc
    obtain ⟨hrlo, hrlt, hrest⟩ := hc
    rw [maskSegs, paint, map_cons]
    by_cases he : e ≤ r.lo
    · have hrest' : l.map (fun u => if s ≤ u.lo ∧ u.hi ≤ e then
          { u with val := u.val &&& mask } else u) = l := by
        refine (map_congr_left fun u hu => ?_).trans (map_id l)
        obtain ⟨h1, h2, -⟩ := hrest.mem_bounds u hu
        exact if_neg (by omega)
      simp only [if_pos he, hrest']
    · simp only [if_neg he, ih hrest]
      rfl

/-- What the first loop makes of a map whose first record may cover no time: the first record
    keeps its beginning, and after it comes a chain in which both ends of the reservation are
    boundaries. -/
theorem placeSegs_shape {f : ℕ → BitVec w} (hse : s < e) (hc : Chain r.hi hi l) (hlo : r.lo = b)
    (hf : Follows b f (r :: l)) (h : EndsWell s e (r :: l)) :
    ∃ l', placeSegs s e (r :: l) = ⟨r.lo, min r.hi s, r.val⟩ :: l' ∧
      Chain (min r.hi s) hi l' ∧ Boundary s l' ∧ Boundary e l' ∧ Follows b f l' := by
  rw [placeSegs]
  by_cases hs : s < r.hi
  · have hc' : Chain s hi (⟨s, r.hi, r.val⟩ :: l) := ⟨rfl, hs, hc⟩
    have h' : EndsWell s e (⟨s, r.hi, r.val⟩ :: l) := by
      simpa only [EndsWell, mem_cons, forall_eq_or_imp, exists_eq_or_imp] using h
    have hf' : Follows b f (⟨s, r.hi, r.val⟩ :: l) :=
      forall_mem_cons.2 ⟨fun t hbt ht => hf r mem_cons_self t hbt ⟨hlo ▸ hbt, ht.2⟩, hf.tail⟩
    rw [if_pos hs, insertEndSegs_eq_cut hc' hse h', min_eq_right hs.le]
    exact ⟨_, rfl, hc'.cut, hc'.boundary_lo.cut, hc'.boundary_cut, hf'.cut⟩
  · rw [if_neg hs, min_eq_left (not_lt.mp hs)]
    have ht : EndsWell s e l := h.tail (by omega)
    by_cases heq : r.hi = s
    · have hcs : Chain s hi l := heq ▸ hc
      rw [if_pos heq, insertEndSegs_eq_cut hcs hse ht]
      exact ⟨_, rfl, hc.cut, hcs.boundary_lo.cut, hc.boundary_cut, hf.tail.cut⟩
    · rw [if_neg heq, placeSegs_eq_cut hse hc (by omega) ht]
      exact ⟨_, rfl, hc.cut.cut, hc.boundary_cut.cut, hc.cut.boundary_cut, hf.tail.cut.cut⟩

/-! ## One reservation -/

/-- One call of `_add_reservation` for `c`. -/
def Plan.reserve (resolution : ℕ) (p : Plan w) (c : Resv w) : Plan w :=
  ⟨addReservation resolution c.startTime c.endReserve (~~~c.nodes) p.nodeSpace, p.made ++ [c]⟩

variable {c : Resv w}

theorem Whole.lt_end {ns : NodeSpace w} (hb : b ≤ c.startTime)
    (h : Whole resolution ns c) : b < roundDown resolution c.endReserve :=
  hb.trans_lt (lt_of_roundDown_lt h.1)

variable {init : BitVec w} {p : Plan w}

/-- **The step lemma.**  A reservation that starts in the window and is recorded whole keeps the
    map right; the first record now ends at the reservation's start if it ended later before. -/
theorem Shows.reserve (hl : WellLinked p.nodeSpace) (hf : Shows resolution b e init p) (hb : b ≤ c.startTime)
    (hw : Whole resolution p.nodeSpace c) :
    WellLinked (p.reserve resolution c).nodeSpace ∧
    Shows resolution b e init (p.reserve resolution c) ∧
    ∀ r ∈ (segments p.nodeSpace).head?, ∀ r' ∈ (segments (p.reserve resolution c).nodeSpace).head?,
      r'.hi = min r.hi (roundDown resolution c.startTime) := by
  obtain ⟨r, l, hsegs, hlo, hchain, hfol⟩ := hf
  have hbe : b < roundDown resolution c.endReserve := hw.lt_end hb
  obtain ⟨hlt, hend⟩ := hw
  obtain ⟨hl', hseg⟩ := addReservation_segments resolution c.startTime c.endReserve (~~~c.nodes) hl
  rw [hsegs] at hend
  obtain ⟨l', hplace, hchain', hbs, hbe', hfol'⟩ := placeSegs_shape hlt hchain hlo hfol hend
  set s := roundDown resolution c.startTime with hs
  set e' := roundDown resolution c.endReserve with he'
  -- the second loop does not stop at the first record, and paints the chain behind it
  obtain ⟨r', hr', hmask⟩ : ∃ r', (r' = { lo := b, hi := min r.hi s, val := r.val &&& ~~~c.nodes } ∧
      s ≤ b ∨ r' = ⟨b, min r.hi s, r.val⟩ ∧ ¬ (s ≤ b ∧ min r.hi s ≤ e')) ∧
      segments (p.reserve resolution c).nodeSpace = r' :: paint s e' (fun v => v &&& ~~~c.nodes) l' := by
    have hstep : segments (p.reserve resolution c).nodeSpace = _ := hseg
    rw [hsegs, hplace, maskSegs, maskSegs_eq_paint hchain', hlo, if_neg (not_le.mpr hbe)] at hstep
    split at hstep
    next hm =>
      exact ⟨_, Or.inl ⟨rfl, hm.1⟩, hstep⟩
    next hm =>
      exact ⟨_, Or.inr ⟨rfl, hm⟩, hstep⟩
  have hhead : r'.lo = b ∧ r'.hi = min r.hi s := by
    rcases hr' with ⟨rfl, -⟩ | ⟨rfl, -⟩ <;> exact ⟨rfl, rfl⟩
  refine ⟨hl', ⟨r', _, hmask, hhead.1, hhead.2 ▸ hchain'.paint, ?_⟩, ?_⟩
  · intro u hu t hbt ht
    show u.val = availableAt resolution init (p.made ++ [c]) t
    rw [availableAt_append]
    rcases mem_cons.mp hu with rfl | hu
    · -- a time covered by the first record lies before the reservation
      have hts : t < s := by have := ht.2; omega
      have hval : u.val = r.val := by
        rcases hr' with ⟨-, hsb⟩ | ⟨rfl, -⟩
        · omega
        · rfl
      rw [if_neg (fun hc => not_lt.mpr hc.1 hts), hval]
      exact hfol r mem_cons_self t hbt ⟨hlo ▸ hbt, by have := ht.2; omega⟩
    · exact (hfol'.paint hbs hbe') u hu t hbt ht
  · intro r0 hr0 r1 hr1
    rw [hsegs] at hr0
    rw [hmask] at hr1
    cases hr0
    cases hr1
    exact hhead.2

theorem faithful_iff_shows (hbe : b < e) :
    Faithful resolution b e init p ↔ Shows resolution b e init p ∧ ∀ r ∈ (segments p.nodeSpace).head?, b < r.hi := by
  constructor
  · rintro ⟨hchain, hfol⟩
    cases hs : segments p.nodeSpace with
    | nil => rw [hs] at hchain; exact absurd hchain hbe.ne
    | cons r l =>
      rw [hs] at hchain hfol
      obtain ⟨hlo, hlt, hrest⟩ := hchain
      refine ⟨⟨r, l, hs, hlo, hrest, hfol⟩, fun u hu => ?_⟩
      cases hu
      exact hlo ▸ hlt
  · rintro ⟨⟨r, l, hs, hlo, hrest, hfol⟩, hpos⟩
    rw [hs] at hpos
    have hlt := hpos r rfl
    unfold Faithful
    rw [hs]
    exact ⟨⟨hlo, hlo ▸ hlt, hrest⟩, hfol⟩

theorem wellLinked_init : WellLinked (initPlan b e init).nodeSpace :=
  ⟨[0], _, .last rfl rfl, by simp⟩

theorem faithful_init (hbe : b < e) : Faithful resolution b e init (initPlan b e init) := by
  refine ⟨⟨rfl, hbe, rfl⟩, ?_⟩
  intro s hs t _ _
  rw [mem_singleton.mp hs]
  rfl

/-! ## Runs of reservations -/

def reservations (w resolution : ℕ) : Machine (Plan w) (Resv w) :=
  ⟨fun p c => some (p.reserve resolution c)⟩

def Resv.Inside (b e : ℕ) (c : Resv w) : Prop :=
  b ≤ c.startTime ∧ c.startTime < c.endReserve ∧ c.endReserve ≤ e

instance (b e : ℕ) (c : Resv w) : Decidable (c.Inside b e) :=
  inferInstanceAs (Decidable (_ ∧ _ ∧ _))

/-- The reservation fits the map: rounded, it starts after the window does, and it is recorded
    whole. -/
def Fits (resolution b : ℕ) (ns : NodeSpace w) (c : Resv w) : Prop :=
  b < roundDown resolution c.startTime ∧ Whole resolution ns c

instance (resolution b : ℕ) (ns : NodeSpace w) (c : Resv w) : Decidable (Fits resolution b ns c) :=
  inferInstanceAs (Decidable (_ ∧ _))

theorem Faithful.reserve (hbe : b < e) (hl : WellLinked p.nodeSpace) (hf : Faithful resolution b e init p)
    (hfit : Fits resolution b p.nodeSpace c) :
    WellLinked (p.reserve resolution c).nodeSpace ∧ Faithful resolution b e init (p.reserve resolution c) := by
  obtain ⟨hshow, hpos⟩ := (faithful_iff_shows hbe).mp hf
  have hb : b ≤ c.startTime := hfit.1.le.trans (roundDown_le _ _)
  obtain ⟨hl', hshow', hhead⟩ := hshow.reserve hl hb hfit.2
  refine ⟨hl', (faithful_iff_shows hbe).mpr ⟨hshow', fun r' hr' => ?_⟩⟩
  obtain ⟨r, l, hsegs, -⟩ := hshow
  have hr : r ∈ (segments p.nodeSpace).head? := by rw [hsegs]; rfl
  have hmin := hhead r hr r' hr'
  have h1 := hpos r hr
  have h2 := hfit.1
  omega

/-- **The map stays faithful.**  Along every sequence of reservations inside the window that fit
    where they are made, the records reachable from index `0` stay a contiguous chain of
    non-empty intervals over the whole window, and the record covering a time shows exactly the
    nodes no reservation holds then. -/
theorem reservations_faithful (resolution b e : ℕ) (init : BitVec w) (hbe : b < e) {p : Plan w}
    (h : (reservations w resolution).Reach
      (fun q c => c.Inside b e ∧ Fits resolution b q.nodeSpace c) (initPlan b e init) p) :
    Faithful resolution b e init p := by
  have hinv : WellLinked p.nodeSpace ∧ Faithful resolution b e init p := by
    refine h.invariant (I := fun q => WellLinked q.nodeSpace ∧ Faithful resolution b e init q)
      ⟨wellLinked_init, faithful_init hbe⟩ ?_
    intro q c q' ⟨hl, hf⟩ hfit hstep
    cases hstep
    exact hf.reserve hbe hl hfit.2
  exact hinv.2

/-- Two reservations that fit: the second ends inside the record that the first left behind
    it. -/
theorem reservations_faithful_two :
    Faithful 60 0 600 (3 : BitVec 2)
      (((initPlan 0 600 (3 : BitVec 2)).reserve 60 ⟨130, 190, 1⟩).reserve 60 ⟨200, 300, 3⟩) :=
  reservations_faithful 60 0 600 3 (by decide)
    (Machine.Reach.of_run [⟨130, 190, 1⟩, ⟨200, 300, 3⟩] .start (by decide) rfl)

/-- A reservation over three records loses its tail: `[60, 240)` is added when `[120, 180)` is
    there, the record `[180, 600)` is not cut, and node `1` still shows as available at time
    `200`. -/
theorem reservation_tail_lost :
    ∃ p : Plan 2, (reservations 2 60).run (initPlan 0 600 3) [⟨120, 180, 1⟩, ⟨60, 240, 2⟩] = some p ∧
      (∀ c ∈ p.made, c.Inside 0 600) ∧ ¬ Faithful 60 0 600 (3 : BitVec 2) p := by
  refine ⟨_, rfl, by decide, fun h => ?_⟩
  have hat := h.2 ⟨180, 600, 3⟩ (by decide) 200 (by decide) (by decide)
  revert hat
  decide

/-! ## Proposals that pass the overlap test first -/

/-- The reservation step of `_attempt_backfill`: a proposal that overlaps an earlier reservation
    is put off (`goto TRY_LATER`), every other one is added. -/
def Plan.attempt (resolution : ℕ) (p : Plan w) (c : Resv w) : Plan w :=
  if testResvOverlap p.nodeSpace c.nodes c.startTime c.endReserve then p
  else p.reserve resolution c

def attempts (w resolution : ℕ) : Machine (Plan w) (Resv w) :=
  ⟨fun p c => some (p.attempt resolution c)⟩

theorem bitSuperSet_eq_false_iff {b1 b2 : BitVec w} :
    bitSuperSet b1 b2 = false ↔ ∃ i < w, b1.getLsbD i = true ∧ b2.getLsbD i = false := by
  unfold bitSuperSet
  rw [beq_eq_false_iff_ne, ne_eq, BitVec.eq_of_getLsbD_eq_iff]
  push Not
  constructor
  · rintro ⟨i, hi, h⟩
    refine ⟨i, hi, ?_⟩
    rw [BitVec.getLsbD_and] at h
    cases h1 : b1.getLsbD i <;> cases h2 : b2.getLsbD i <;> simp [h1, h2] at h ⊢
  · rintro ⟨i, hi, h1, h2⟩
    exact ⟨i, hi, by rw [BitVec.getLsbD_and, h1, h2]; decide⟩

/-- **What the overlap test rejects**: a proposal starting in the window for which some node is
    not available at some time of the window inside its interval — nothing else. -/
theorem testResvOverlap_iff (hl : WellLinked p.nodeSpace) (hf : Shows resolution b e init p)
    (hb : b ≤ c.startTime) (hc : c.startTime < c.endReserve) :
    testResvOverlap p.nodeSpace c.nodes c.startTime c.endReserve = true ↔
      ∃ t, b ≤ t ∧ t < e ∧ c.startTime ≤ t ∧ t < c.endReserve ∧
        ∃ i < w, c.nodes.getLsbD i = true ∧ (availableAt resolution init p.made t).getLsbD i = false := by
  obtain ⟨r, l, hsegs, hlo, hchain, hfol⟩ := hf
  rw [testResvOverlap_eq hl, hsegs, overlapSegs, any_eq_true]
  constructor
  · rintro ⟨s, hs, hov⟩
    obtain ⟨h1, h2, h3⟩ := of_decide_eq_true hov
    -- a record that ends after the proposal starts is not the empty one
    have hbounds : s.lo < s.hi ∧ s.hi ≤ e := by
      rcases mem_cons.mp hs with rfl | hs
      · exact ⟨by omega, hchain.le⟩
      · exact (hchain.mem_bounds s hs).2
    have hcov : Covers (max s.lo c.startTime) s := ⟨le_max_left _ _, by omega⟩
    refine ⟨max s.lo c.startTime, by omega, by omega, by omega, by omega, ?_⟩
    rw [← hfol s hs _ (by omega) hcov]
    exact bitSuperSet_eq_false_iff.mp h3
  · rintro ⟨t, hbt, hte, h1, h2, i, hi, hn, ha⟩
    obtain ⟨s, hs, hcov⟩ : ∃ s ∈ r :: l, Covers t s := by
      rcases lt_or_ge t r.hi with hlt | hge
      · exact ⟨r, mem_cons_self, hlo ▸ hbt, hlt⟩
      · obtain ⟨s, hs, hcov⟩ := hchain.exists_covers hge hte
        exact ⟨s, mem_cons_of_mem _ hs, hcov⟩
    have hlo' := hcov.1
    have hhi' := hcov.2
    refine ⟨s, hs, decide_eq_true ⟨by omega, by omega, ?_⟩⟩
    refine bitSuperSet_eq_false_iff.mpr ⟨i, hi, hn, ?_⟩
    rw [hfol s hs t hbt hcov]
    exact ha

/-- Two reservations share no node if their rounded intervals share a time of the window. -/
def Resv.Apart (resolution b e : ℕ) (c d : Resv w) : Prop :=
  ∀ t, b ≤ t → t < e → c.Holds resolution t → d.Holds resolution t →
    ∀ i < w, ¬ (c.nodes.getLsbD i = true ∧ d.nodes.getLsbD i = true)

/-- A proposal that passed the test is apart from every reservation made before: a time shared
    by the two ROUNDED intervals gives one shared by the earlier rounded interval and the later
    interval as proposed, which is the one the test looks at. -/
theorem apart_of_accepted {d : Resv w}
    (hl : WellLinked p.nodeSpace) (hf : Shows resolution b e init p) (hd : d ∈ p.made)
    (hb : b ≤ c.startTime) (hce : c.startTime < e) (hlt : c.startTime < c.endReserve)
    (hacc : testResvOverlap p.nodeSpace c.nodes c.startTime c.endReserve = false) : d.Apart resolution b e c := by
  intro t hbt hte hdt hct i hi ⟨hdi, hci⟩
  have hdt1 := hdt.1
  have hs1 : roundDown resolution d.startTime < roundDown resolution d.endReserve :=
    hdt.1.trans_lt hdt.2
  have hs2 : c.startTime < roundDown resolution d.endReserve :=
    lt_of_roundDown_lt (hct.1.trans_lt hdt.2)
  have hend : roundDown resolution d.startTime < c.endReserve :=
    (hdt.1.trans_lt hct.2).trans_le (roundDown_le _ _)
  have hrej : testResvOverlap p.nodeSpace c.nodes c.startTime c.endReserve = true := by
    rw [testResvOverlap_iff hl hf hb hlt]
    refine ⟨max (roundDown resolution d.startTime) c.startTime, by omega, by omega, by omega,
      by omega, i, hi, hci, ?_⟩
    rw [Bool.eq_false_iff, ne_eq, getLsbD_availableAt resolution init i _ hi]
    rintro ⟨-, hfree⟩
    have hno := hfree d hd ⟨le_max_left _ _, by omega⟩
    rw [hdi] at hno
    cases hno
  rw [hacc] at hrej
  cases hrej

/-- What holds of the plan while proposals are processed. -/
structure Attempted (resolution b e : ℕ) (init : BitVec w) (p : Plan w) : Prop where
  linked : WellLinked p.nodeSpace
  shows : Shows resolution b e init p
  apart : p.made.Pairwise (Resv.Apart resolution b e)

/-- The proposals the runs below are about: each starts inside the window and before it ends,
    and one that passes the test is recorded whole. -/
def Recordable (resolution b e : ℕ) (p : Plan w) (c : Resv w) : Prop :=
  (b ≤ c.startTime ∧ c.startTime < e ∧ c.startTime < c.endReserve) ∧
  (testResvOverlap p.nodeSpace c.nodes c.startTime c.endReserve = false → Whole resolution p.nodeSpace c)

instance (resolution b e : ℕ) (p : Plan w) (c : Resv w) : Decidable (Recordable resolution b e p c) :=
  inferInstanceAs (Decidable (_ ∧ (_ → _)))

theorem Attempted.attempt (h : Attempted resolution b e init p) (hc : Recordable resolution b e p c) :
    Attempted resolution b e init (p.attempt resolution c) := by
  obtain ⟨⟨hb, hce, hlt⟩, hwhole⟩ := hc
  unfold Plan.attempt
  by_cases hov : testResvOverlap p.nodeSpace c.nodes c.startTime c.endReserve = true
  · rw [if_pos hov]; exact h
  · have hacc : testResvOverlap p.nodeSpace c.nodes c.startTime c.endReserve = false := by
      simpa using hov
    rw [if_neg hov]
    obtain ⟨hl, hf, -⟩ := h.shows.reserve h.linked hb (hwhole hacc)
    refine ⟨hl, hf, pairwise_append.mpr ⟨h.apart, pairwise_singleton _ _, ?_⟩⟩
    intro d hd c' hc'
    rw [mem_singleton.mp hc']
    exact apart_of_accepted h.linked h.shows hd hb hce hlt hacc

/-- **No double booking, up to rounding.**  No two accepted proposals whose rounded intervals
    share a time of the window share a node, and the test rejects exactly the proposals that
    need a node at a time of the window when an accepted one holds it (or it never was
    available). -/
theorem attempts_apart (resolution b e : ℕ) (init : BitVec w) (hbe : b < e) {p : Plan w}
    (h : (attempts w resolution).Reach (Recordable resolution b e) (initPlan b e init) p) :
    p.made.Pairwise (Resv.Apart resolution b e) ∧
    ∀ c : Resv w, b ≤ c.startTime → c.startTime < c.endReserve →
      (testResvOverlap p.nodeSpace c.nodes c.startTime c.endReserve = true ↔
        ∃ t, b ≤ t ∧ t < e ∧ c.startTime ≤ t ∧ t < c.endReserve ∧
          ∃ i < w, c.nodes.getLsbD i = true ∧
            (availableAt resolution init p.made t).getLsbD i = false) := by
  have hinv : Attempted resolution b e init p := by
    refine h.invariant ⟨wellLinked_init,
      ((faithful_iff_shows hbe).mp (faithful_init hbe)).1, List.Pairwise.nil⟩ ?_
    intro q c q' hq hrec hstep
    cases hstep
    exact hq.attempt hrec
  exact ⟨hinv.apart, fun c hb hc => testResvOverlap_iff hinv.linked hinv.shows hb hc⟩

/-- Three proposals, the second refused because the first holds node `0` until `180`. -/
theorem attempts_apart_three :
    ((((initPlan 10 600 (3 : BitVec 2)).attempt 60 ⟨20, 190, 1⟩).attempt 60
      ⟨150, 250, 3⟩).attempt 60 ⟨200, 300, 3⟩).made.Pairwise (Resv.Apart 60 10 600) :=
  (attempts_apart 60 10 600 3 (by decide) (Machine.Reach.of_run
    [⟨20, 190, 1⟩, ⟨150, 250, 3⟩, ⟨200, 300, 3⟩] .start (by decide) rfl)).1

/-- The rounding gives away what is left of the last step: `[60, 130)` is recorded as
    `[60, 120)`, so a proposal for `[125, 190)` on the same node passes the test although the
    two intersect. -/
theorem attempts_rounding_overlap :
    ∃ (p : Plan 1) (c d : Resv 1),
      (attempts 1 60).run (initPlan 0 600 1) [c, d] = some p ∧ p.made = [c, d] ∧
      (∃ t, c.startTime ≤ t ∧ t < c.endReserve ∧ d.startTime ≤ t ∧ t < d.endReserve) ∧
      ∃ i < 1, c.nodes.getLsbD i = true ∧ d.nodes.getLsbD i = true :=
  ⟨_, ⟨60, 130, 1⟩, ⟨125, 190, 1⟩, rfl, by decide, ⟨125, by decide⟩, 0, by decide⟩

/-- **The map stays in its array.**  `_attempt_backfill` makes room for `max_backfill_job_cnt + 3` records and
    makes no reservation once there are `max_backfill_job_cnt`.  So whatever the proposals, no record is
    written outside, and the records stay linked in one list, which every walk along it comes to the end of. -/
theorem node_space_stays_in_array (maxBackfillJobCnt resolution b e : ℕ) (init : BitVec w) {p : Plan w}
    (h : (attempts w resolution).Reach (fun q _ => ¬q.nodeSpace.length ≥ maxBackfillJobCnt)
      (initPlan b e init) p) :
    p.nodeSpace.length < maxBackfillJobCnt + 3 ∧ WellLinked p.nodeSpace := by
  have hinv := h.invariant (I := fun q => q.nodeSpace.length ≤ maxBackfillJobCnt + 1 ∧ WellLinked q.nodeSpace)
    ⟨Nat.le_add_left .., wellLinked_init⟩ ?_
  · exact ⟨by omega, hinv.2⟩
  · rintro q c _ ⟨hle, hlinked⟩ hroom ⟨⟩
    unfold Plan.attempt
    split_ifs
    · exact ⟨hle, hlinked⟩
    · refine ⟨?_, (addReservation_segments _ _ _ _ hlinked).1⟩
      show (maskFrom _ _ _ (placeFrom _ _ q.nodeSpace _ _) _ _).length ≤ _
      rw [length_maskFrom]
      exact (length_placeFrom_le ..).trans (by omega)

/-- Room for five records, of which one reservation takes three. -/
theorem node_space_stays_in_array_one :
    ((initPlan 0 600 (3 : BitVec 2)).attempt 60 ⟨130, 190, 1⟩).nodeSpace.length < 2 + 3 :=
  (node_space_stays_in_array 2 60 0 600 (3 : BitVec 2) (.of_run [⟨130, 190, 1⟩] .start (by decide) rfl)).1

end Slurmpp.Backfill
