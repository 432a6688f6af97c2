/-
  What `_rm_dependency` cuts out of a regular text.

  What comes out of its loop is described by a relation, `Cuts`, that goes through the text ONCE: a character is kept,
  or the key `:id` is cut, where the loop does not go on to remove the type before it.

  On groups (`rmDependency_ungroup`), the items which ARE the numeral of the id go, if no item goes on behind the
  numeral (`:12` in `:12_3`) and every group keeps an item.  The last condition is the one that fails in practice:
  the last id of a group takes the type with it, but leaves the comma.
-/
import Slurmpp.Depend.Format

namespace Slurmpp.Depend

open Text List

variable {key pre rest out u v after : Text} {c : Char}

/-! ## The loop as a relation -/

/-- The key stands at the beginning, and no digit follows. -/
def Exact (key text : Text) : Prop := ∃ after, text = key ++ after ∧ NoDigitFirst after

/-- Behind `pre`, the text `rest` becomes what follows `pre` in `out`. -/
inductive Cuts (key : Text) : Text → Text → Text → Prop
  | done {pre : Text} : Cuts key pre [] pre
  | keep {pre rest out : Text} {c : Char} (hno : ¬Exact key (c :: rest))
      (hrest : Cuts key (pre ++ [c]) rest out) : Cuts key pre (c :: rest) out
  | cut {pre after out : Text} (hd : NoDigitFirst after)
      (hstay : after.head? = some ':' ∨ pre.getLast?.any Char.isAlpha = false)
      (hrest : Cuts key pre after out) : Cuts key pre (key ++ after) out

/-- What is looked for: a colon and a numeral. -/
def IsKey (key : Text) : Prop := ∃ ds, key = ':' :: ds ∧ ds ≠ [] ∧ ∀ c ∈ ds, c.isDigit = true

theorem Cuts.of_keep (h : Cuts key pre (c :: rest) out) (hno : ¬Exact key (c :: rest)) :
    Cuts key (pre ++ [c]) rest out := by
  generalize htext : c :: rest = text at h hno
  cases h with
  | done => cases htext
  | keep _ hrest =>
    cases htext
    exact hrest
  | cut hd _ _ => exact absurd ⟨_, rfl, hd⟩ hno

theorem Cuts.of_cut (hkey : key ≠ []) (h : Cuts key pre (key ++ after) out) (hd : NoDigitFirst after) :
    (after.head? = some ':' ∨ pre.getLast?.any Char.isAlpha = false) ∧ Cuts key pre after out := by
  generalize htext : key ++ after = text at h
  cases h with
  | done => exact absurd (append_eq_nil_iff.1 htext).1 hkey
  | keep hno _ => exact absurd ⟨after, htext.symm, hd⟩ hno
  | cut _ hstay hrest =>
    obtain rfl := append_cancel_left htext
    exact ⟨hstay, hrest⟩

/-- The key is to be cut nowhere in `u`, when `v` follows. -/
def Clean (key u v : Text) : Prop := ∀ a b, u = a ++ b → b ≠ [] → ¬Exact key (b ++ v)

theorem Clean.of_append {u' : Text} (h : Clean key (u ++ u') v) : Clean key u (u' ++ v) := by
  intro a b hab hb
  have hno := h a (b ++ u') (by rw [hab, append_assoc]) (by simp [hb])
  rwa [append_assoc] at hno

theorem cuts_append (h : Clean key u v) : Cuts key pre (u ++ v) out ↔ Cuts key (pre ++ u) v out := by
  induction u generalizing pre with
  | nil => simp
  | cons c u ih =>
    have hc : ¬Exact key (c :: (u ++ v)) := h [] (c :: u) rfl (by simp)
    have hu : Clean key u v := fun a b hab => h (c :: a) b (by rw [hab]; rfl)
    have hstep : pre ++ c :: u = pre ++ [c] ++ u := by simp
    rw [hstep, ← ih hu]
    exact ⟨fun hcuts => hcuts.of_keep hc, fun hcuts => .keep hc hcuts⟩

theorem IsKey.not_exact_suffix (hkey : IsKey key) {a b : Text} (hab : key = a ++ b) (ha : a ≠ [])
    (hb : b ≠ []) : ¬Exact key (b ++ v) := by
  obtain ⟨ds, rfl, -, hds⟩ := hkey
  obtain ⟨c, a, rfl⟩ := exists_cons_of_ne_nil ha
  obtain ⟨d, b, rfl⟩ := exists_cons_of_ne_nil hb
  rintro ⟨after, hafter, -⟩
  obtain rfl : d = ':' := (cons.inj hafter).1
  have hd := hds ':' (by rw [(cons.inj hab).2]; simp)
  cases hd

theorem Cuts.of_nil (hkey : key ≠ []) (h : Cuts key pre [] out) : out = pre := by
  generalize htext : ([] : Text) = text at h
  cases h with
  | done => rfl
  | keep _ _ => cases htext
  | cut _ _ _ => exact absurd (append_eq_nil_iff.1 htext.symm).1 hkey

theorem noDigitFirst_iff : NoDigitFirst u ↔ u.head?.any Char.isDigit = false := by
  cases u <;> simp [NoDigitFirst]

section Occurrence

variable {skip : Text} (hkey : IsKey key)
  (hno : ∀ a b, skip = a ++ b → b ≠ [] → ¬key <+: b ++ (key ++ after))
include hkey hno

theorem clean_partial (hdig : after.head?.any Char.isDigit = true) : Clean key (skip ++ key) after := by
  have hself : ¬Exact key (key ++ after) := by
    rintro ⟨after', hafter, hd⟩
    obtain rfl := append_cancel_left hafter
    rw [noDigitFirst_iff, hdig] at hd
    cases hd
  intro a b hab hb
  rcases append_eq_append_iff.1 hab with ⟨a', rfl, hb'⟩ | ⟨b', rfl, rfl⟩
  · rcases eq_or_ne a' [] with rfl | ha'
    · rw [nil_append] at hb'
      exact hb' ▸ hself
    · exact hkey.not_exact_suffix hb' ha' hb
  · rcases eq_or_ne b' [] with rfl | hb''
    · exact hself
    · rw [append_assoc]
      rintro ⟨after', hafter, -⟩
      exact hno a b' rfl hb'' ⟨after', hafter.symm⟩

theorem clean_join (hd : NoDigitFirst after) : Clean key skip after := by
  rintro a b rfl hb ⟨after', hafter, -⟩
  rcases append_eq_append_iff.1 hafter with ⟨a', hk, ha'⟩ | ⟨b', rfl, -⟩
  · cases a' with
    | nil =>
      rw [append_nil] at hk
      exact hno a b rfl hb ⟨key ++ after, by rw [hk]⟩
    | cons d a' =>
      obtain ⟨ds, rfl, -, hds⟩ := hkey
      obtain ⟨c, b, rfl⟩ := exists_cons_of_ne_nil hb
      have hdd := hds d (by rw [(cons.inj hk).2]; simp)
      rw [hd d (by rw [ha']; rfl)] at hdd
      cases hdd
  · exact hno a _ rfl hb ⟨b' ++ (key ++ after), by simp⟩

end Occurrence

/-- **The loop does what the relation says.** -/
theorem rmLoop_of_cuts (hkey : IsKey key) {fuel : Nat} (h : Cuts key pre rest out)
    (hfuel : rest.length < fuel) : rmLoop key fuel pre rest = out := by
  have hne : key ≠ [] := by
    obtain ⟨ds, rfl, -⟩ := hkey
    simp
  have hpos : 0 < key.length := length_pos_iff.2 hne
  induction fuel generalizing pre rest with
  | zero => exact absurd hfuel (Nat.not_lt_zero _)
  | succ fuel ih =>
    rw [rmLoop]
    cases hs : strstr key rest with
    | none =>
      have hclean : Clean key rest [] := by
        rintro a b hab hb ⟨after, hafter, -⟩
        rw [append_nil] at hafter
        exact strstr_eq_none hs a b hab hb ⟨after, hafter.symm⟩
      rw [← append_nil rest, cuts_append hclean] at h
      exact (h.of_nil hne).symm
    | some r =>
      obtain ⟨skip, after⟩ := r
      obtain ⟨rfl, hno⟩ := strstr_eq_some hs
      simp only [length_append] at hfuel
      dsimp only
      by_cases hdig : after.head?.any Char.isDigit = true
      · rw [if_pos hdig]
        have hlen : key.length ≤ (skip ++ key).length := by simp
        have hpartial := clean_partial hkey hno hdig
        rw [← take_append_drop key.length (skip ++ key)] at hpartial
        rw [← append_assoc] at h ⊢
        rw [take_append_of_le_length hlen, drop_append_of_le_length hlen]
        refine ih ?_ ?_
        · rw [← cuts_append hpartial.of_append, ← append_assoc, take_append_drop]
          exact h
        · simp only [length_append, length_drop]
          omega
      · have hd : NoDigitFirst after := noDigitFirst_iff.2 (Bool.not_eq_true _ ▸ hdig)
        have hskip : Clean key skip (key ++ after) := by
          rintro a b hab hb ⟨after', hafter, -⟩
          exact hno a b hab hb ⟨after', hafter.symm⟩
        rw [cuts_append hskip] at h
        obtain ⟨hstay, hrest⟩ := h.of_cut hne hd
        rw [if_neg hdig, if_pos hstay]
        refine ih ((cuts_append (clean_join hkey hno hd)).2 hrest) ?_
        rw [length_append]
        omega

/-! ## Groups -/

/-- No letter comes last. -/
def NoAlphaLast (text : Text) : Prop := text.getLast?.any Char.isAlpha = false

theorem noAlphaLast_append (hv : v ≠ []) : NoAlphaLast (u ++ v) ↔ NoAlphaLast v := by
  rw [NoAlphaLast, NoAlphaLast, getLast?_append_of_ne_nil _ hv]

theorem NoAlphaLast.of_digits (h : ∀ c ∈ u, c.isDigit = true) : NoAlphaLast u := by
  rw [NoAlphaLast]
  cases hu : u.getLast? with
  | none => rfl
  | some c =>
    have hc := h c (mem_of_getLast? hu)
    refine Bool.eq_false_iff.2 fun halpha => ?_
    simp only [Option.any_some, Char.isAlpha, Char.isUpper, Char.isLower, Char.isDigit,
      Bool.or_eq_true, Bool.and_eq_true, decide_eq_true_eq, UInt32.le_iff_toNat_le] at halpha hc
    have h1 : 'A'.val.toNat = 65 := rfl
    have h2 : 'a'.val.toNat = 97 := rfl
    have h3 : '9'.val.toNat = 57 := rfl
    omega

theorem NoAlphaLast.of_suffix (h : v <:+ u) (hv : NoAlphaLast v) (hne : v ≠ []) : NoAlphaLast u := by
  obtain ⟨a, rfl⟩ := h
  exact (noAlphaLast_append hne).2 hv

theorem noAlphaLast_of_strtol (h : (strtol u).2 = []) : NoAlphaLast u := by
  rw [strtol_eq] at h
  have hsuf : (if (u.dropWhile isSpace).head? = some '-' ∨ (u.dropWhile isSpace).head? = some '+'
      then (u.dropWhile isSpace).tail else u.dropWhile isSpace) <:+ u := by
    split_ifs
    · exact (tail_suffix _).trans (dropWhile_suffix _)
    · exact dropWhile_suffix _
  dsimp only at h
  generalize (if (u.dropWhile isSpace).head? = some '-' ∨ (u.dropWhile isSpace).head? = some '+'
    then (u.dropWhile isSpace).tail else u.dropWhile isSpace) = t at h hsuf
  split at h
  next ht =>
    obtain rfl : u = [] := h
    rfl
  next ht =>
    have hdig : ∀ c ∈ t, c.isDigit = true := dropWhile_eq_nil_iff.1 h
    refine NoAlphaLast.of_suffix hsuf (.of_digits hdig) ?_
    rintro rfl
    exact ht rfl

theorem noAlphaLast_of_itemRest {w : Text} (h : itemRest w = []) : NoAlphaLast w := by
  rw [itemRest] at h
  by_cases hne : (strtol w).2 = []
  · exact noAlphaLast_of_strtol hne
  · refine NoAlphaLast.of_suffix (suffix_strtol w) ?_ hne
    generalize (strtol w).2 = sep at h hne
    unfold readTask at h
    split at h
    · exact absurd h hne
    · rename_i u _
      rcases eq_or_ne u [] with rfl | hu
      · rfl
      · have hcons : '_' :: u = ['_'] ++ u := rfl
        rw [hcons, noAlphaLast_append hu]
        exact noAlphaLast_of_strtol h
    · exact absurd h hne

variable {n : Nat}

/-- An item that is read to its end, without separators, and goes on behind the numeral `n` only with
    a digit or not at all. -/
structure ItemFor (n : Nat) (w : Text) : Prop where
  neat : ',' ∉ w ∧ ':' ∉ w
  read : itemRest w = []
  apart : ∀ v, w = ofNat n ++ v → NoDigitFirst v → v = []

/-- The items other than the numeral. -/
def isOther (n : Nat) (w : Text) : Bool := decide (w ≠ ofNat n)

theorem isKey_ofNat : IsKey (':' :: ofNat n) :=
  ⟨ofNat n, rfl, ofNat_ne_nil n, fun _ hc => isDigit_of_mem_ofNat hc⟩

theorem clean_of_not_mem (h : ':' ∉ u) : Clean (':' :: ofNat n) u v := by
  rintro a b rfl hb ⟨after, hafter, -⟩
  obtain ⟨c, b, rfl⟩ := exists_cons_of_ne_nil hb
  obtain rfl : c = ':' := (cons.inj hafter).1
  exact h (by simp)

theorem ItemFor.clean {w : Text} (hw : ItemFor n w) (hne : w ≠ ofNat n) (hrest : NoDigitFirst v) :
    Clean (':' :: ofNat n) (':' :: w) v := by
  intro a b hab hb
  cases a with
  | cons c a => exact clean_of_not_mem hw.neat.2 a b (cons.inj hab).2 hb
  | nil =>
    obtain rfl : ':' :: w = b := hab
    rintro ⟨after, hafter, hd⟩
    have hafter : w ++ v = ofNat n ++ after := (cons.inj hafter).2
    rcases append_eq_append_iff.1 hafter with ⟨a', hk, ha'⟩ | ⟨b', rfl, rfl⟩
    · cases a' with
      | nil =>
        rw [append_nil] at hk
        exact hne hk.symm
      | cons d a' =>
        have hdig : d.isDigit = true := isDigit_of_mem_ofNat (by rw [hk]; simp)
        rw [hrest d (by rw [ha']; rfl)] at hdig
        cases hdig
    · have hb' : NoDigitFirst b' := by
        intro c hc
        obtain ⟨b'', rfl⟩ := head?_eq_some_iff.1 hc
        exact hd c rfl
      obtain rfl := hw.apart b' rfl hb'
      exact hne (append_nil _)

theorem noDigitFirst_colons {ws : List Text} (hrest : EndsGroup rest) : NoDigitFirst (colons ws ++ rest) := by
  cases ws with
  | nil =>
    rcases hrest with rfl | ⟨r, rfl⟩
    · exact fun _ hc => absurd hc (by simp [colons])
    · rintro c hc
      cases hc
      rfl
  | cons w ws =>
    rintro c hc
    obtain rfl : ':' = c := Option.some.inj hc
    rfl

theorem cuts_items {ws : List Text} (hws : ∀ w ∈ ws, ItemFor n w) (hrest : EndsGroup rest)
    (hstay : NoAlphaLast pre ∨ ws.filter (isOther n) ≠ [])
    (h : Cuts (':' :: ofNat n) (pre ++ colons (ws.filter (isOther n))) rest out) :
    Cuts (':' :: ofNat n) pre (colons ws ++ rest) out := by
  induction ws generalizing pre with
  | nil => simpa [colons] using h
  | cons w ws ih =>
    have hws' := fun v hv => hws v (mem_cons_of_mem w hv)
    have hnext : NoDigitFirst (colons ws ++ rest) := noDigitFirst_colons hrest
    have htext : colons (w :: ws) ++ rest = (':' :: w) ++ (colons ws ++ rest) := by
      simp [colons]
    rw [htext]
    by_cases hw : w = ofNat n
    · subst hw
      have hfilter : (ofNat n :: ws).filter (isOther n) = ws.filter (isOther n) :=
        filter_cons_of_neg (by simp [isOther])
      rw [hfilter] at hstay h
      refine .cut hnext ?_ (ih hws' hstay h)
      rcases hstay with hpre | hne
      · exact .inr hpre
      · -- another item of the group follows
        obtain ⟨v, vs, rfl⟩ := exists_cons_of_ne_nil fun hnil : ws = [] => hne (by simp [hnil])
        exact .inl rfl
    · have hfilter : (w :: ws).filter (isOther n) = w :: ws.filter (isOther n) :=
        filter_cons_of_pos (by simp [isOther, hw])
      rw [hfilter] at h
      have hitem := hws w mem_cons_self
      rw [cuts_append (hitem.clean hw hnext)]
      refine ih hws' (.inl ?_) ?_
      · rw [noAlphaLast_append (by simp)]
        rcases eq_or_ne w [] with rfl | hne
        · rfl
        · have hcons : ':' :: w = [':'] ++ w := rfl
          rw [hcons, noAlphaLast_append hne]
          exact noAlphaLast_of_itemRest hitem.read
      · simpa [colons] using h

theorem cuts_group {g : Group} (hn : g.Neat) (hws : ∀ w ∈ g.items, ItemFor n w)
    (hkeep : g.items ≠ [] → ∃ w ∈ g.items, w ≠ ofNat n) (hrest : EndsGroup rest)
    (h : Cuts (':' :: ofNat n) (pre ++ (g.keep (isOther n)).text) rest out) :
    Cuts (':' :: ofNat n) pre (g.text ++ rest) out := by
  rw [Group.text, append_assoc, cuts_append (clean_of_not_mem hn.1.2)]
  rw [Group.text, Group.keep, ← append_assoc] at h
  by_cases hitems : g.items = []
  · rw [hitems] at h ⊢
    simpa [colons] using h
  · obtain ⟨w, hw, hne⟩ := hkeep hitems
    refine cuts_items hws hrest (.inr ?_) h
    exact ne_nil_of_mem (mem_filter.2 ⟨hw, by simpa [isOther] using hne⟩)

theorem cuts_ungroup {gs : List Group} (hn : ∀ g ∈ gs, g.Neat) (hws : ∀ g ∈ gs, ∀ w ∈ g.items, ItemFor n w)
    (hkeep : ∀ g ∈ gs, g.items ≠ [] → ∃ w ∈ g.items, w ≠ ofNat n) :
    Cuts (':' :: ofNat n) pre (ungroup gs) (pre ++ ungroup (gs.map (Group.keep (isOther n)))) := by
  induction gs generalizing pre with
  | nil => exact (append_nil pre).symm ▸ .done
  | cons g gs ih =>
    have hg : ∀ rest out, EndsGroup rest →
        Cuts (':' :: ofNat n) (pre ++ (g.keep (isOther n)).text) rest out →
        Cuts (':' :: ofNat n) pre (g.text ++ rest) out := fun _ _ =>
      cuts_group (hn g mem_cons_self) (hws g mem_cons_self) (hkeep g mem_cons_self)
    by_cases hgs : gs = []
    · subst hgs
      have hcut := hg [] _ (.inl rfl) .done
      rw [append_nil] at hcut
      exact hcut
    · rw [ungroup_cons hgs]
      have hmap : gs.map (Group.keep (isOther n)) ≠ [] := by simpa using hgs
      rw [map_cons, ungroup_cons hmap]
      refine hg _ _ (.inr ⟨_, rfl⟩) ?_
      have hcomma : Clean (':' :: ofNat n) [','] (ungroup gs) := clean_of_not_mem (by decide)
      have hcons : ',' :: ungroup gs = [','] ++ ungroup gs := rfl
      rw [hcons, cuts_append hcomma]
      have hrest := @ih (pre ++ (g.keep (isOther n)).text ++ [','])
        (forall_mem_cons.1 hn).2
        (forall_mem_cons.1 hws).2
        (forall_mem_cons.1 hkeep).2
      simpa using hrest

/-- **The numeral of the id goes, from all groups.** -/
theorem rmDependency_ungroup {gs : List Group} {e : DependSpec} (he : e.arrayTaskId = noVal16)
    (hn : ∀ g ∈ gs, g.Neat) (hws : ∀ g ∈ gs, ∀ w ∈ g.items, ItemFor e.jobId w)
    (hkeep : ∀ g ∈ gs, g.items ≠ [] → ∃ w ∈ g.items, w ≠ ofNat e.jobId) :
    rmDependency (ungroup gs) e = ungroup (gs.map (Group.keep (isOther e.jobId))) := by
  have hkey : rmvDep e = ':' :: ofNat e.jobId := by
    rw [rmvDep, he, if_neg (by decide), if_neg (by simp), append_nil]
  rw [rmDependency, hkey]
  exact rmLoop_of_cuts isKey_ofNat (cuts_ungroup hn hws hkeep) (Nat.lt_succ_self _)

/-- The last id of a group takes the type with it, and leaves the comma. -/
example : rmDependency "after:5,afterok:6".toList ⟨noVal16, .after, 5, none⟩ = ",afterok:6".toList := by decide

end Slurmpp.Depend
