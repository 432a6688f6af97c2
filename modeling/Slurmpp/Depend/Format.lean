/-
  Dependency texts as groups.

  Every text can be cut at its commas into tokens, and a token at its colons into a word and items.
  On a REGULAR text, in which a token without items is the word `singleton` and nothing else begins
  like it, the two loops of the parser go along these cuts:

  1. **Reading** (`parseDepend_ungroup`) — the parser accepts the text if `readGroups` does, which
     takes the groups one after the other and the items of each one after the other, and its list is
     that of all items that stand for a job (`readGroups_list`).

  2. **Reading less** (`readGroups_keep`) — groups that were accepted are accepted again without some
     of their items, even in another state, as long as every group keeps an item and a job to be
     expanded can still be.
-/
import Slurmpp.Depend.Test

namespace Slurmpp.Depend

open Text List Option

/-! ## Groups -/

/-- A token: the word before the first colon, and the items behind the colons. -/
structure Group where
  word : Text
  items : List Text
deriving DecidableEq, Repr

/-- The items, each behind a colon. -/
def colons (ws : List Text) : Text := ws.flatMap (':' :: ·)

namespace Group

def text (g : Group) : Text := g.word ++ colons g.items

def ofText (tok : Text) : Group := ⟨(tok.splitOn ':').headD [], (tok.splitOn ':').tail⟩

/-- The word and the items have no separators in them. -/
def Neat (g : Group) : Prop :=
  (',' ∉ g.word ∧ ':' ∉ g.word) ∧ ∀ w ∈ g.items, ',' ∉ w ∧ ':' ∉ w

end Group

def groups (text : Text) : List Group := (text.splitOn ',').map Group.ofText

def ungroup (gs : List Group) : Text := joined ',' (gs.map Group.text)

theorem joined_colon (w : Text) (ws : List Text) : joined ':' (w :: ws) = w ++ colons ws := by
  induction ws generalizing w with
  | nil => simp [joined, colons]
  | cons v ws ih => rw [joined, ih, colons, colons, flatMap_cons, cons_append]

theorem Group.text_ofText (tok : Text) : (Group.ofText tok).text = tok := by
  have hne : tok.splitOn ':' ≠ [] := splitOn_ne_nil _ _
  obtain ⟨w, ws, h⟩ := exists_cons_of_ne_nil hne
  rw [Group.text, Group.ofText, h]
  show w ++ colons ws = tok
  rw [← joined_colon, ← h, joined_splitOn]

theorem Group.neat_ofText {tok : Text} (h : ',' ∉ tok) : (Group.ofText tok).Neat := by
  have hne : tok.splitOn ':' ≠ [] := splitOn_ne_nil _ _
  have hmem : ∀ w ∈ tok.splitOn ':', ',' ∉ w ∧ ':' ∉ w := fun w hw =>
    ⟨fun hc => h (mem_of_mem_splitOn hw hc), not_mem_of_mem_splitOn hw⟩
  obtain ⟨w, ws, hsplit⟩ := exists_cons_of_ne_nil hne
  rw [Group.ofText, hsplit]
  rw [hsplit] at hmem
  exact ⟨hmem w mem_cons_self, (forall_mem_cons.1 hmem).2⟩

theorem ungroup_groups (text : Text) : ungroup (groups text) = text := by
  rw [ungroup, groups, List.map_map]
  have hid : Group.text ∘ Group.ofText = id := funext Group.text_ofText
  rw [hid, List.map_id, joined_splitOn]

theorem Group.Neat.comma_not_mem_text {g : Group} (h : g.Neat) : ',' ∉ g.text := by
  rw [Group.text, mem_append, colons, mem_flatMap]
  rintro (hw | ⟨w, hw, hc⟩)
  · exact h.1.1 hw
  · rcases mem_cons.1 hc with hc | hc
    · exact absurd hc (by decide)
    · exact (h.2 w hw).1 hc

theorem neat_of_mem_groups {text : Text} {g : Group} (h : g ∈ groups text) : g.Neat := by
  obtain ⟨tok, htok, rfl⟩ := mem_map.1 h
  exact Group.neat_ofText (not_mem_of_mem_splitOn htok)

theorem groups_ne_nil (text : Text) : groups text ≠ [] := by
  rw [groups, Ne, map_eq_nil_iff]
  exact splitOn_ne_nil _ _

variable {gs : List Group}

theorem ungroup_cons {g : Group} (h : gs ≠ []) : ungroup (g :: gs) = g.text ++ ',' :: ungroup gs := by
  obtain ⟨g', gs', rfl⟩ := exists_cons_of_ne_nil h
  rfl

theorem ungroup_singleton (g : Group) : ungroup [g] = g.text := rfl

theorem groups_ungroup (hne : gs ≠ []) (h : ∀ g ∈ gs, g.Neat) : groups (ungroup gs) = gs := by
  have hofText : ∀ g : Group, g.Neat → Group.ofText g.text = g := by
    intro g hg
    have hno : ∀ w ∈ g.word :: g.items, ':' ∉ w :=
      forall_mem_cons.2 ⟨hg.1.2, fun w hw => (hg.2 w hw).2⟩
    rw [Group.ofText, Group.text, ← joined_colon, splitOn_joined hno (by simp)]
    rfl
  have hno : ∀ w ∈ gs.map Group.text, ',' ∉ w := by
    intro w hw
    obtain ⟨g, hg, rfl⟩ := mem_map.1 hw
    exact (h g hg).comma_not_mem_text
  rw [groups, ungroup, splitOn_joined hno (by simpa using hne), List.map_map]
  exact (List.map_congr_left fun g hg => hofText g (h g hg)).trans (List.map_id _)

/-! ## Reading an item -/

def itemId (w : Text) : Nat := uint32 (strtol w).1

def itemTask (w : Text) : Nat := (readTask (strtol w).2).1

def itemRest (w : Text) : Text := (readTask (strtol w).2).2

/-- What an item stands for. -/
def standsFor (s : Jobs) (w : Text) : Option Nat × Nat := resolve s (itemId w) (itemTask w)

def itemEntry (s : Jobs) (t : DependType) (w : Text) : Option DependSpec :=
  (standsFor s w).1.map fun d => ⟨(standsFor s w).2, t, (s.job d).jobId, some d⟩

def readItem (s : Jobs) (j : Nat) (t : DependType) (p : Parse) (w : Text) : Option Parse :=
  if itemId w = 0 ∨ itemId w = (s.job j).jobId ∨ itemRest w ≠ [] then none
  else if t = .expand ∧ expandRefused s j p.expandCnt (standsFor s w).1 then none
  else some {
    jobId := itemId w
    expandCnt := p.expandCnt || t = .expand
    list := p.list ++ (itemEntry s t w).toList
    expandingJobid := if t = .expand then itemId w else p.expandingJobid
    gres := if t = .expand then (standsFor s w).1.bind fun d => (s.job d).gres else p.gres }

section Item

variable {w rest : Text}

theorem dropWhile_append_stop {p : Char → Bool} (h : ∀ c ∈ rest.head?, p c = false) :
    (w ++ rest).dropWhile p = w.dropWhile p ++ rest := by
  have hrest : rest.dropWhile p = rest := by
    cases rest with
    | nil => rfl
    | cons c rest => simp [h c (by simp)]
  rw [dropWhile_append, hrest]
  split_ifs with he
  · rw [isEmpty_iff.1 he, nil_append]
  · rfl

theorem takeWhile_append_stop {p : Char → Bool} (h : ∀ c ∈ rest.head?, p c = false) :
    (w ++ rest).takeWhile p = w.takeWhile p := by
  have hrest : rest.takeWhile p = [] := by
    cases rest with
    | nil => rfl
    | cons c rest => simp [h c (by simp)]
  rw [takeWhile_append, hrest]
  split_ifs with he
  · rw [append_nil, (List.takeWhile_prefix p).eq_of_length he]
  · rfl

theorem head_of_endsId (h : endsId rest = true) : ∀ c ∈ rest.head?, c = ',' ∨ c = ':' := by
  intro c hc
  rw [endsId, mem_def.1 hc] at h
  simpa using h

theorem strtol_append (h : endsId rest = true) : strtol (w ++ rest) = ((strtol w).1, (strtol w).2 ++ rest) := by
  have hhead := head_of_endsId h
  have hstop : ∀ p : Char → Bool, p ',' = false → p ':' = false → ∀ c ∈ rest.head?, p c = false := by
    intro p h1 h2 c hc
    rcases hhead c hc with rfl | rfl
    · exact h1
    · exact h2
  have hsign : ∀ (u : Text) (c : Char), c ≠ ',' → c ≠ ':' → ((u ++ rest).head? = some c ↔ u.head? = some c) := by
    intro u c h1 h2
    cases u with
    | nil =>
      refine iff_of_false (fun hc => ?_) (by simp)
      rcases hhead c hc with rfl | rfl
      · exact h1 rfl
      · exact h2 rfl
    | cons c' u => rfl
  rw [strtol_eq, strtol_eq w, dropWhile_append_stop (hstop _ (by decide) (by decide))]
  generalize w.dropWhile isSpace = u
  have htail : (if (u ++ rest).head? = some '-' ∨ (u ++ rest).head? = some '+' then (u ++ rest).tail
      else u ++ rest) = (if u.head? = some '-' ∨ u.head? = some '+' then u.tail else u) ++ rest := by
    simp only [hsign u '-' (by decide) (by decide), hsign u '+' (by decide) (by decide)]
    split_ifs with hu
    · cases u with
      | nil => simp at hu
      | cons c u => rfl
    · rfl
  dsimp only
  rw [htail]
  generalize (if u.head? = some '-' ∨ u.head? = some '+' then u.tail else u) = t
  have hnum : leadingNat (t ++ rest) = leadingNat t := by
    rw [leadingNat, takeWhile_append_stop (hstop _ (by decide) (by decide)), leadingNat]
  rw [takeWhile_append_stop (hstop _ (by decide) (by decide)),
    dropWhile_append_stop (hstop _ (by decide) (by decide)), hnum]
  simp only [hsign u '-' (by decide) (by decide)]
  split_ifs <;> rfl

theorem readTask_append (h : endsId rest = true) :
    readTask (w ++ rest) = ((readTask w).1, (readTask w).2 ++ rest) := by
  have hhead := head_of_endsId h
  match w with
  | [] =>
    match rest with
    | [] => rfl
    | c :: rest =>
      have hc : c ≠ '_' := by
        rintro rfl
        rcases hhead '_' rfl with h | h <;> exact absurd h (by decide)
      simp [readTask, hc]
  | [c] =>
    by_cases hc : c = '_'
    · subst hc
      have hst : readTask ('_' :: rest) = (uint16 (strtol rest).1, (strtol rest).2) := by
        match rest with
        | [] => rfl
        | c :: rest =>
          have hc : c ≠ '*' := by
            rintro rfl
            rcases hhead '*' rfl with h | h <;> exact absurd h (by decide)
          simp [readTask, hc]
      have happ := strtol_append (w := []) h
      rw [nil_append] at happ
      rw [singleton_append, hst, happ]
      rfl
    · simp [readTask, hc]
  | c :: c' :: w =>
    by_cases hc : c = '_'
    · subst hc
      by_cases hc' : c' = '*'
      · subst hc'
        rfl
      · have happ := strtol_append (w := c' :: w) h
        rw [cons_append] at happ
        simp [readTask, hc', happ]
    · simp [readTask, hc]

theorem suffix_itemRest : itemRest w <:+ w :=
  (suffix_readTask _).trans (suffix_strtol w)

end Item

/-- The outcome of a reader: what it has gathered, and a result if it does not refuse. -/
def outcome {α : Type} (r : Parse × Option α) : Option (Parse × α) := r.2.map fun a => (r.1, a)

variable {s : Jobs} {j : Nat} {expandAllow : Bool} {t : DependType} {p : Parse} {w : Text}

theorem parseId_append {w rest : Text} (hw : ',' ∉ w ∧ ':' ∉ w) (h : endsId rest = true) :
    outcome (parseId s j t (w ++ rest) p) = (readItem s j t p w).map (·, rest) := by
  have hends : endsId (itemRest w ++ rest) = false ↔ itemRest w ≠ [] := by
    cases hr : itemRest w with
    | nil => simp [h]
    | cons c r =>
      have hc : c ∈ w := suffix_itemRest.subset (hr ▸ mem_cons_self)
      have h1 : c ≠ ',' := fun hcc => hw.1 (hcc ▸ hc)
      have h2 : c ≠ ':' := fun hcc => hw.2 (hcc ▸ hc)
      simp [endsId, h1, h2]
  rw [parseId, strtol_append h]
  rw [readTask_append h]
  dsimp only
  rw [← itemRest, ← itemTask, ← itemId, ← standsFor, readItem]
  simp only [hends]
  by_cases hbad : itemId w = 0 ∨ itemId w = (s.job j).jobId ∨ itemRest w ≠ []
  · rw [if_pos hbad, if_pos hbad]
    rfl
  · have hrest : itemRest w = [] := by
      by_contra hne
      exact hbad (.inr (.inr hne))
    rw [if_neg hbad, if_neg hbad, hrest, nil_append, itemEntry]
    generalize standsFor s w = r
    obtain ⟨dep, task⟩ := r
    split_ifs with h1 h2
    · rfl
    · cases dep with
      | none | some => simp [outcome, h2]
    · cases dep with
      | none | some => simp [outcome, h2]

/-! ## Reading groups -/

def singletonSpec : DependSpec := ⟨0, .singleton, 0, none⟩

def readGroup (s : Jobs) (j : Nat) (expandAllow : Bool) (p : Parse) (g : Group) : Option Parse :=
  if g.items = [] then some { p with list := p.list ++ [singletonSpec] }
  else
    match readType g.word with
    | none => none
    | some t =>
      if t = .expand ∧ expandAllow = false then none else g.items.foldlM (readItem s j t) p

def readGroups (s : Jobs) (j : Nat) (expandAllow : Bool) (gs : List Group) (p : Parse) : Option Parse :=
  gs.foldlM (readGroup s j expandAllow) p

/-- A token without items is the word `singleton`, and nothing else begins like it.  (A task is below
    `INFINITE`.) -/
def Group.Regular (g : Group) : Prop :=
  if g.items = [] then g.word.map Char.toLower = "singleton".toList
  else hasWord "singleton".toList g.word = false ∧ ∀ w ∈ g.items, itemTask w ≠ infinite16

instance (g : Group) : Decidable g.Regular := by
  unfold Group.Regular
  infer_instance

variable {q p' : Parse}

theorem outcome_eq_some {α : Type} {r : Parse × Option α} {a : α} : outcome r = some (q, a) ↔ r = (q, some a) := by
  obtain ⟨p, o⟩ := r
  cases o <;> simp [outcome]

theorem outcome_eq_none {α : Type} {r : Parse × Option α} : outcome r = none ↔ r.2 = none := by
  obtain ⟨p, o⟩ := r
  cases o <;> simp [outcome]

def EndsGroup (rest : Text) : Prop := rest = [] ∨ ∃ r, rest = ',' :: r

theorem EndsGroup.endsId {rest : Text} (h : EndsGroup rest) : endsId rest = true := by
  rcases h with rfl | ⟨r, rfl⟩ <;> rfl

variable {ws : List Text}

theorem parseIds_append {w rest : Text} (hws : ∀ v ∈ w :: ws, ',' ∉ v ∧ ':' ∉ v)
    (hrest : EndsGroup rest) {fuel : Nat} (hfuel : ws.length < fuel) :
    outcome (parseIds s j t fuel (w ++ (colons ws ++ rest)) p) =
      ((w :: ws).foldlM (readItem s j t) p).map (·, rest) := by
  induction ws generalizing w p fuel with
  | nil =>
    obtain ⟨fuel, rfl⟩ : ∃ n, fuel = n + 1 := ⟨fuel - 1, by omega⟩
    have hid := parseId_append (s := s) (j := j) (t := t) (p := p) (hws w mem_cons_self)
      hrest.endsId
    have hone : [w].foldlM (readItem s j t) p = readItem s j t p w := by
      rw [foldlM_cons]
      cases readItem s j t p w <;> rfl
    rw [show colons [] ++ rest = rest from rfl, parseIds, hone, ← hid]
    split
    · rename_i q sep heq
      -- no colon follows
      rw [heq] at hid
      obtain ⟨q', -, hq⟩ := map_eq_some_iff.1 hid.symm
      rcases hrest with rfl | ⟨r, rfl⟩ <;> simp at hq
    · rfl
  | cons v ws ih =>
    obtain ⟨fuel, rfl⟩ : ∃ n, fuel = n + 1 := ⟨fuel - 1, by omega⟩
    have htext : colons (v :: ws) ++ rest = ':' :: (v ++ (colons ws ++ rest)) := by
      simp [colons]
    have hid : outcome (parseId s j t (w ++ (colons (v :: ws) ++ rest)) p) =
        (readItem s j t p w).map (·, colons (v :: ws) ++ rest) :=
      parseId_append (hws w mem_cons_self) (by rw [htext]; rfl)
    rw [parseIds, foldlM_cons]
    cases hr : readItem s j t p w with
    | none =>
      rw [hr, map_none, outcome_eq_none] at hid
      split
      · rename_i q sep heq
        rw [heq] at hid
        cases hid
      · rw [outcome_eq_none.2 hid]
        rfl
    | some q =>
      rw [hr, map_some, outcome_eq_some, htext] at hid
      rw [htext, hid]
      exact ih (forall_mem_cons.1 hws).2 (by simpa using hfuel)

theorem hasWord_append {k word rest : Text} (hk : ∀ c ∈ k, c ≠ ':') :
    hasWord k (word ++ ':' :: rest) = hasWord k word := by
  by_cases hle : k.length ≤ word.length
  · rw [hasWord, hasWord, take_append_of_le_length hle]
  · -- the colon would be a character of the keyword
    have h1 : hasWord k word = false := by
      refine decide_eq_false fun h => ?_
      have hlen := congrArg length h
      rw [length_map, length_take] at hlen
      omega
    have h2 : hasWord k (word ++ ':' :: rest) = false := by
      refine decide_eq_false fun h => ?_
      refine hk ':' ?_ rfl
      rw [← h, List.mem_map]
      refine ⟨':', ?_, by decide⟩
      rw [take_append, mem_append]
      right
      obtain ⟨n, hn⟩ : ∃ n, k.length - word.length = n + 1 := ⟨k.length - word.length - 1, by omega⟩
      rw [hn, take_succ_cons]
      exact mem_cons_self
    rw [h1, h2]

theorem readType_append {word rest : Text} : readType (word ++ ':' :: rest) = readType word := by
  unfold readType
  rw [hasWord_append (by simp), hasWord_append (by simp), hasWord_append (by simp),
    hasWord_append (by simp), hasWord_append (by simp)]

/-- What is left to do after a group. -/
def nextOf : Text → Next
  | ',' :: rest => .go rest
  | _ => .stop

theorem length_le_colons (ws : List Text) : ws.length ≤ (colons ws).length := by
  induction ws with
  | nil => exact Nat.le_refl _
  | cons w ws ih =>
    have hcons : colons (w :: ws) = ':' :: w ++ colons ws := rfl
    rw [hcons, length_append, length_cons, length_cons]
    omega

theorem parseTok_text {g : Group} {rest : Text} (hn : g.Neat) (hr : g.Regular) (hrest : EndsGroup rest) :
    (∀ q, readGroup s j expandAllow p g = some q →
      parseTok s j expandAllow (g.text ++ rest) p = (q, nextOf rest)) ∧
    (readGroup s j expandAllow p g = none → (parseTok s j expandAllow (g.text ++ rest) p).2 = .refused) := by
  obtain ⟨word, items⟩ := g
  rw [readGroup, Group.text, parseTok]
  cases items with
  | nil =>
    have hword : word.map Char.toLower = "singleton".toList := hr
    have hlen : word.length = 9 := by
      have := congrArg length hword
      rwa [length_map] at this
    have hhas : hasWord "singleton".toList (word ++ colons [] ++ rest) = true := by
      refine decide_eq_true ?_
      rw [show colons [] = [] from rfl, append_nil]
      show ((word ++ rest).take 9).map Char.toLower = _
      rw [← hlen, take_left, hword]
    have hdrop : (word ++ colons [] ++ rest).drop 9 = rest := by
      rw [show colons [] = [] from rfl, append_nil, ← hlen, drop_left]
    rw [if_pos rfl, if_pos hhas, hdrop]
    refine ⟨fun q hq => ?_, by simp⟩
    cases hq
    rcases hrest with rfl | ⟨r, rfl⟩ <;> rfl
  | cons w ws =>
    obtain ⟨hsing, -⟩ : hasWord "singleton".toList word = false ∧ _ := hr
    have htext : word ++ colons (w :: ws) ++ rest = word ++ ':' :: (w ++ (colons ws ++ rest)) := by
      simp [colons]
    have hcolon : (word ++ ':' :: (w ++ (colons ws ++ rest))).dropWhile (· ≠ ':') =
        ':' :: (w ++ (colons ws ++ rest)) := by
      have hword : word.dropWhile (· ≠ ':') = [] := by
        rw [dropWhile_eq_nil_iff]
        intro c hc
        exact decide_eq_true fun hcc => hn.1.2 (hcc ▸ hc)
      rw [dropWhile_append, hword]
      rfl
    have hlen : ws.length < (w ++ (colons ws ++ rest)).length + 1 := by
      have := length_le_colons ws
      simp only [length_append]
      omega
    rw [if_neg (by simp), htext, hasWord_append (by simp), hsing, if_neg (by simp), hcolon]
    rw [readType_append]
    cases htype : readType word with
    | none => simp
    | some t =>
      dsimp only
      by_cases hx : t = .expand ∧ expandAllow = false
      · rw [if_pos hx, if_pos hx]
        simp
      · rw [if_neg hx, if_neg hx]
        have hids := parseIds_append (s := s) (j := j) (t := t) (p := p) hn.2 hrest hlen
        refine ⟨fun q hq => ?_, fun hq => ?_⟩
        · rw [hq, map_some, outcome_eq_some] at hids
          rw [hids]
          rcases hrest with rfl | ⟨r, rfl⟩ <;> rfl
        · rw [hq, map_none, outcome_eq_none] at hids
          generalize parseIds s j t _ _ p = r at hids
          obtain ⟨q, o⟩ := r
          obtain rfl : o = none := hids
          rfl

theorem parseToks_ungroup (hne : gs ≠ []) (hn : ∀ g ∈ gs, g.Neat)
    (hr : ∀ g ∈ gs, g.Regular) (text : Text) {fuel : Nat} (hfuel : gs.length ≤ fuel) :
    outcome (parseToks s j expandAllow text fuel (ungroup gs) p) =
      (readGroups s j expandAllow gs p).map (·, text) := by
  induction gs generalizing p fuel with
  | nil => exact absurd rfl hne
  | cons g gs ih =>
    obtain ⟨fuel, rfl⟩ : ∃ n, fuel = n + 1 := ⟨fuel - 1, by simp at hfuel; omega⟩
    obtain ⟨rest, hrest, htext⟩ : ∃ rest, EndsGroup rest ∧ ungroup (g :: gs) = g.text ++ rest ∧
        (gs = [] ∧ rest = [] ∨ gs ≠ [] ∧ rest = ',' :: ungroup gs) := by
      by_cases hgs : gs = []
      · subst hgs
        exact ⟨[], .inl rfl, by simp [ungroup_singleton], .inl ⟨rfl, rfl⟩⟩
      · exact ⟨_, .inr ⟨_, rfl⟩, ungroup_cons hgs, .inr ⟨hgs, rfl⟩⟩
    have htok := @parseTok_text s j expandAllow p g rest (hn g mem_cons_self)
      (hr g mem_cons_self) hrest
    rw [parseToks, htext.1, readGroups, foldlM_cons]
    cases hg : readGroup s j expandAllow p g with
    | none =>
      have hnone := htok.2 hg
      generalize parseTok s j expandAllow (g.text ++ rest) p = r at hnone
      obtain ⟨q, n⟩ := r
      obtain rfl : n = .refused := hnone
      rfl
    | some q =>
      rw [htok.1 q hg]
      rcases htext.2 with ⟨rfl, rfl⟩ | ⟨hgs, rfl⟩
      · rfl
      · exact ih hgs (forall_mem_cons.1 hn).2
          (forall_mem_cons.1 hr).2 (by simpa using hfuel)

theorem length_le_ungroup : gs.length ≤ (ungroup gs).length + 1 := by
  induction gs with
  | nil => simp
  | cons g gs ih =>
    by_cases hgs : gs = []
    · simp [hgs]
    · rw [ungroup_cons hgs, length_append, length_cons, length_cons]
      omega

def Parse.start (s : Jobs) (j : Nat) : Parse := ⟨0, false, [], 0, (s.job j).gres⟩

/-- **The parser reads the groups of a regular text**, and the text is stored as it is. -/
theorem parseDepend_ungroup (hne : gs ≠ []) (hn : ∀ g ∈ gs, g.Neat) (hr : ∀ g ∈ gs, g.Regular) :
    outcome (parseDepend s j expandAllow (ungroup gs)) =
      (readGroups s j expandAllow gs (.start s j)).map (·, ungroup gs) :=
  parseToks_ungroup hne hn hr _ length_le_ungroup

/-! ## The entries that are read -/

def groupEntries (s : Jobs) (g : Group) : List DependSpec :=
  if g.items = [] then [singletonSpec]
  else g.items.filterMap (itemEntry s ((readType g.word).getD .after))

theorem readItem_eq_some {w : Text} (h : readItem s j t p w = some q) :
    ¬(itemId w = 0 ∨ itemId w = (s.job j).jobId ∨ itemRest w ≠ []) ∧
    ¬(t = .expand ∧ expandRefused s j p.expandCnt (standsFor s w).1) ∧
    q.list = p.list ++ (itemEntry s t w).toList ∧ q.expandCnt = (p.expandCnt || t = .expand) := by
  rw [readItem] at h
  obtain ⟨hbad, h⟩ := ite_none_left_eq_some.1 h
  obtain ⟨href, h⟩ := ite_none_left_eq_some.1 h
  cases h
  exact ⟨hbad, href, rfl, rfl⟩

theorem readItems_list (h : ws.foldlM (readItem s j t) p = some q) :
    q.list = p.list ++ ws.filterMap (itemEntry s t) := by
  induction ws generalizing p with
  | nil =>
    cases h
    simp
  | cons w ws ih =>
    rw [foldlM_cons] at h
    obtain ⟨p', hp', h⟩ := bind_eq_some_iff.1 h
    obtain ⟨-, -, hlist, -⟩ := readItem_eq_some hp'
    rw [ih h, hlist, append_assoc]
    cases hi : itemEntry s t w <;> simp [hi]

theorem readGroups_list (h : readGroups s j expandAllow gs p = some q) :
    q.list = p.list ++ gs.flatMap (groupEntries s) := by
  induction gs generalizing p with
  | nil =>
    cases h
    simp
  | cons g gs ih =>
    rw [readGroups, foldlM_cons] at h
    obtain ⟨p', hp', h⟩ := bind_eq_some_iff.1 h
    have hg : p'.list = p.list ++ groupEntries s g := by
      rw [readGroup] at hp'
      rw [groupEntries]
      split_ifs at hp' ⊢
      · cases hp'
        rfl
      · cases htype : readType g.word with
        | none =>
          rw [htype] at hp'
          cases hp'
        | some t =>
          simp only [htype] at hp'
          split_ifs at hp'
          exact readItems_list hp'
    rw [ih h, hg, append_assoc, flatMap_cons]

def Expandable (s : Jobs) (j : Nat) (w : Text) : Prop :=
  expandRefused s j false (standsFor s w).1 = false

instance : Decidable (Expandable s j w) := inferInstanceAs (Decidable (_ = _))

theorem Expandable.of_not_refused {c : Bool}
    (h : ¬expandRefused s j c (standsFor s w).1 = true) : Expandable s j w := by
  unfold Expandable
  cases hd : (standsFor s w).1 with
  | none =>
    rw [hd] at h
    exact absurd rfl h
  | some d =>
    rw [hd] at h
    cases c with
    | false => exact Bool.not_eq_true _ ▸ h
    | true => simp [expandRefused] at h

theorem readItems_mem (h : ws.foldlM (readItem s j t) p = some q) :
    ∀ w ∈ ws, itemRest w = [] ∧ (t = .expand → Expandable s j w) := by
  induction ws generalizing p with
  | nil => exact fun w hw => absurd hw (by simp)
  | cons w ws ih =>
    rw [foldlM_cons] at h
    obtain ⟨p', hp', h⟩ := bind_eq_some_iff.1 h
    obtain ⟨hbad, href, -⟩ := readItem_eq_some hp'
    refine forall_mem_cons.2 ⟨⟨?_, fun ht => .of_not_refused fun hr => href ⟨ht, hr⟩⟩, ih h⟩
    by_contra hne
    exact hbad (.inr (.inr hne))

theorem readGroups_mem (h : readGroups s j expandAllow gs p = some q) :
    ∀ g ∈ gs, g.items ≠ [] → ∃ t, readType g.word = some t ∧
      ∀ w ∈ g.items, itemRest w = [] ∧ (t = .expand → Expandable s j w) := by
  induction gs generalizing p with
  | nil => exact fun g hg => absurd hg (by simp)
  | cons g gs ih =>
    rw [readGroups, foldlM_cons] at h
    obtain ⟨p', hp', h⟩ := bind_eq_some_iff.1 h
    intro g' hg' hitems
    rcases mem_cons.1 hg' with rfl | hg'
    · rw [readGroup, if_neg hitems] at hp'
      cases htype : readType g'.word with
      | none =>
        rw [htype] at hp'
        cases hp'
      | some t =>
        simp only [htype] at hp'
        obtain ⟨-, hp'⟩ := ite_none_left_eq_some.1 hp'
        exact ⟨t, rfl, readItems_mem hp'⟩
    · exact ih h g' hg' hitems

/-! ## Fewer items are read as well -/

theorem readItems_filter {s' : Jobs} (hid : (s'.job j).jobId = (s.job j).jobId) {f : Text → Bool}
    (h : ws.foldlM (readItem s j t) p = some q) (hx : ∀ w ∈ ws, f w = true → t = .expand → Expandable s' j w)
    (hp : p'.expandCnt = true → p.expandCnt = true) :
    ∃ q', (ws.filter f).foldlM (readItem s' j t) p' = some q' ∧ (q'.expandCnt = true → q.expandCnt = true) := by
  induction ws generalizing p p' with
  | nil =>
    cases h
    exact ⟨p', rfl, hp⟩
  | cons w ws ih =>
    rw [foldlM_cons] at h
    obtain ⟨p1, hp1, h⟩ := bind_eq_some_iff.1 h
    have hws := fun v hv => hx v (mem_cons_of_mem w hv)
    obtain ⟨hbad, href, -, hcnt1⟩ := readItem_eq_some hp1
    cases hf : f w with
    | false =>
      rw [filter_cons_of_neg (by simp [hf])]
      exact ih h hws fun hq => by simp [hcnt1, hp hq]
    | true =>
      rw [filter_cons_of_pos hf, foldlM_cons, readItem, hid, if_neg hbad]
      have hok : ¬(t = .expand ∧ expandRefused s' j p'.expandCnt (standsFor s' w).1 = true) := by
        rintro ⟨ht, hr⟩
        have hcnt : p.expandCnt = false := by
          -- a second job to expand would have been refused
          by_contra hc
          refine href ⟨ht, ?_⟩
          rw [Bool.not_eq_false] at hc
          rw [hc]
          cases (standsFor s w).1 <;> simp [expandRefused]
        have hcnt' : p'.expandCnt = false := by
          by_contra hc
          rw [Bool.not_eq_false] at hc
          rw [hp hc] at hcnt
          cases hcnt
        rw [hcnt', hx w mem_cons_self hf ht] at hr
        cases hr
      rw [if_neg hok]
      refine ih h hws ?_
      intro hq
      rcases Bool.or_eq_true_iff.1 hq with hq | hq
      · simp [hcnt1, hp hq]
      · simp [hcnt1, hq]

/-- A group without some of its items. -/
def Group.keep (f : Text → Bool) (g : Group) : Group := ⟨g.word, g.items.filter f⟩

theorem Group.keep_nil {g : Group} {f : Text → Bool} (hkeep : g.items ≠ [] → ∃ w ∈ g.items, f w = true) :
    (g.keep f).items = [] ↔ g.items = [] := by
  refine ⟨fun h => ?_, fun h => by rw [Group.keep, h]; rfl⟩
  by_contra hne
  obtain ⟨w, hw, hf⟩ := hkeep hne
  exact ne_nil_of_mem (mem_filter.2 ⟨hw, hf⟩) h

/-- **Groups that were read are read again without some of their items**, if each group keeps an item
    and the jobs to be expanded are still expandable. -/
theorem readGroups_keep {s' : Jobs} (hid : (s'.job j).jobId = (s.job j).jobId) {f : Text → Bool}
    (h : readGroups s j expandAllow gs p = some q) (hkeep : ∀ g ∈ gs, g.items ≠ [] → ∃ w ∈ g.items, f w = true)
    (hx : ∀ g ∈ gs, readType g.word = some .expand → ∀ w ∈ g.items, f w = true → Expandable s' j w)
    (hp : p'.expandCnt = true → p.expandCnt = true) :
    ∃ q', readGroups s' j expandAllow (gs.map (Group.keep f)) p' = some q' := by
  induction gs generalizing p p' with
  | nil => exact ⟨p', rfl⟩
  | cons g gs ih =>
    rw [readGroups, foldlM_cons] at h
    obtain ⟨p1, hp1, h⟩ := bind_eq_some_iff.1 h
    obtain ⟨p2, hp2, hcnt⟩ : ∃ p2, readGroup s' j expandAllow p' (g.keep f) = some p2 ∧
        (p2.expandCnt = true → p1.expandCnt = true) := by
      rw [readGroup] at hp1 ⊢
      split at hp1
      next hitems =>
        cases hp1
        rw [if_pos ((Group.keep_nil (hkeep g mem_cons_self)).2 hitems)]
        exact ⟨_, rfl, hp⟩
      next hitems =>
        rw [if_neg (mt (Group.keep_nil (hkeep g mem_cons_self)).1 hitems)]
        show ∃ p2, (match readType g.word with
          | none => none
          | some t => if t = .expand ∧ expandAllow = false then none
            else (g.items.filter f).foldlM (readItem s' j t) p') = some p2 ∧ _
        cases htype : readType g.word with
        | none =>
          rw [htype] at hp1
          cases hp1
        | some t =>
          simp only [htype] at hp1 ⊢
          split_ifs at hp1 with hallow
          rw [if_neg hallow]
          refine readItems_filter hid hp1 ?_ hp
          rintro w hw hfw rfl
          exact hx g mem_cons_self htype w hw hfw
    obtain ⟨q', hq'⟩ := ih h (forall_mem_cons.1 hkeep).2
      (forall_mem_cons.1 hx).2 hcnt
    refine ⟨q', ?_⟩
    rw [map_cons, readGroups, foldlM_cons, hp2]
    exact hq'

end Slurmpp.Depend
