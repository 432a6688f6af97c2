/-
  Changing the accounts and the users of a reservation (`_update_account_list` and `_update_uid_list`).

  A request is a list of names with commas.  Without signs it is the new list.  With signs, `+name` adds a name
  and `-name` removes it; if the reservation has a list of names that are NOT permitted, the two change places,
  and a list that is empty becomes such a list with the first `-name`.

  Both functions work on the reservation as they go, so what they leave behind when they fail is part of the
  model.  The users are also kept as a text, from which names are cut out in place (`cutName`).
-/
import Slurmpp.Slurmctld.Resv.Record

namespace Slurmpp.Resv

open List

/-! ## Requests -/

inductive Kind
  | minus
  | plus
  | set
deriving DecidableEq

def kindOf : Text → Kind × Text
  | '-' :: name => (.minus, name)
  | '+' :: name => (.plus, name)
  | name => (.set, name)

/-- The loop over the words; `signed` says whether one had a sign.  `valid` looks a name up. -/
def parseNames {α : Type} (valid : Text → Option α) : List Text → Bool → Option (List (Kind × Text × α))
  | [], _ => some []
  | word :: words, signed =>
    let (kind, name) := kindOf word
    if kind = .set ∧ signed then none
    else (valid name).bind fun a =>
      (parseNames valid words (signed || decide (kind ≠ .set))).map ((kind, name, a) :: ·)

def hasKind {α : Type} (kind : Kind) (names : List (Kind × Text × α)) : Bool := names.any (·.1 = kind)

def Kind.swap : Kind → Kind
  | .minus => .plus
  | .plus => .minus
  | .set => .set

/-- The names with their kinds, and whether there are names to remove and names to add: they change places for a
    list of names that are not permitted, unless there are both. -/
def signs {α : Type} (notList : Bool) (names : List (Kind × Text × α)) : List (Kind × Text × α) × Bool × Bool :=
  let minus := hasKind .minus names
  let plus := hasKind .plus names
  if notList then
    (names.map fun e => (e.1.swap, e.2), if minus && !plus then (false, true) else if !minus && plus then (true, false)
      else (minus, plus))
  else (names, minus, plus)

/-! ## Accounts -/

/-- `strcmp` with a name of the list, whose sign is passed over. -/
def sameAccountName (entry name : Text) : Bool := (match entry with | '-' :: t => t | t => t) = name

/-- Removes the names from the list one by one, up to one that is not there. -/
def removeAccounts : List Text → List Text → List Text × Bool
  | [], list => (list, true)
  | name :: names, list =>
    match list.findIdx? (sameAccountName · name) with
    | none => (list, false)
    | some j => removeAccounts names (list.eraseIdx j)

def addAccounts (names list : List Text) : List Text :=
  names.foldl (fun list name => if list.any (sameAccountName · name) then list else list ++ [name]) list

/-- `accounts` from the list. -/
def accountText (notList : Bool) (list : List Text) : Option Text :=
  if list = [] then none else some (Text.joined ',' (list.map fun name => if notList then '-' :: name else name))

def namesOf {α : Type} (kind : Kind) (names : List (Kind × Text × α)) : List Text :=
  (names.filter (·.1 = kind)).map (·.2.1)

/-- The names to remove; whether all were there. -/
def minusAccounts (r : Reservation) (names : List Text) : Reservation × Bool :=
  if r.accountList = [] then (r, false)
  else
    let left := removeAccounts names r.accountList
    if left.2 then ({ r with accountList := left.1, accounts := accountText r.accountNot left.1 }, true)
    else ({ r with accountList := left.1 }, false)

def plusAccounts (r : Reservation) (names : List Text) : Reservation :=
  { r with
    accountList := addAccounts names r.accountList
    accounts := accountText r.accountNot (addAccounts names r.accountList) }

/-- Modification of the existing list: names are removed, then added. -/
def changeAccounts {α : Type} (r : Reservation) (change : List (Kind × Text × α) × Bool × Bool) : Reservation × Bool :=
  let removed := if change.2.1 then minusAccounts r (namesOf .minus change.1) else (r, true)
  if removed.2 && change.2.2 then (plusAccounts removed.1 (namesOf .plus change.1), true) else removed

/-- `_update_account_list`; whether it succeeds. -/
def updateAccountList (isAccountValid : Text → Bool) (r : Reservation) (accounts : Text) : Reservation × Bool :=
  match parseNames (fun name => if isAccountValid name then some () else none) (Text.words ',' accounts) false with
  | none => (r, false)
  | some names =>
    if !hasKind .plus names && !hasKind .minus names then
      -- just a reset of account list
      ({ r with
          accounts := if accounts = [] then none else some accounts
          accountList := names.map (·.2.1)
          accountNot := false }, true)
    else
      let notList := r.accountNot || (decide (r.accountList = []) && hasKind .minus names)
      changeAccounts { r with accountNot := notList } (signs notList names)

/-! ## Users -/

def nul : Char := Char.ofNat 0

def stringAt (buf : List Char) (i : Nat) : Text := (buf.drop i).takeWhile (· ≠ nul)

def strstr (buf : List Char) (name : Text) (i : Nat) : Option Nat :=
  ((range ((stringAt buf i).length + 1)).find? fun d => name.isPrefixOf ((stringAt buf i).drop d)).map (i + ·)

/-- The byte before position `i`; before the first one there is the header of the memory block. -/
def before (buf : List Char) (i : Nat) : Char := if i = 0 then nul else buf.getD (i - 1) nul

/-- `for (j=0; ; j++) { tok[j] = tok[j+k]; if (tok[j] == '\0') break; }` -/
def shiftDown (buf : List Char) (tok k : Nat) : Option (List Char) :=
  let s := stringAt buf (tok + k)
  if tok + k + s.length < buf.length then some (buf.take tok ++ s ++ nul :: buf.drop (tok + s.length + 1)) else none

/-- The loop that cuts a name out of the text.  `k` is the length of what is cut, and grows with a comma or a
    sign.  `none` is a read behind the buffer, or a loop that does not end within `fuel` turns. -/
def cutName (name : Text) : Nat → List Char → Nat → Nat → Option (List Char)
  | 0, _, _, _ => none
  | fuel + 1, buf, tmp, k =>
    match strstr buf name tmp with
    | none => some buf
    | some tok =>
      if tok ≠ 0 ∧ before buf tok ≠ ',' ∧ before buf tok ≠ '-' then cutName name fuel buf (tok + 1) k
      else (buf[tok + k]?).bind fun after =>
        if after ≠ nul ∧ after ≠ ',' then cutName name fuel buf (tok + 1) k
        else
          let (tok, k) := if before buf tok = '-' then (tok - 1, k + 1) else (tok, k)
          if before buf tok = ',' then (shiftDown buf (tok - 1) (k + 1)).bind fun buf => cutName name fuel buf tmp (k + 1)
          else (buf[tok + k]?).bind fun after =>
            let k := if after = ',' then k + 1 else k
            (shiftDown buf tok k).bind fun buf => cutName name fuel buf tmp k

/-- Removes the users from the list and from the text, up to one that is not there.  Without a text the search in
    it faults. -/
def removeUsers : List (Text × BitVec 32) → List (BitVec 32) → Option (List Char) →
    Option (List (BitVec 32) × Option (List Char) × Bool)
  | [], list, buf => some (list, buf, true)
  | (name, uid) :: names, list, buf =>
    match list.findIdx? (· = uid) with
    | none => some (list, buf, false)
    | some j =>
      buf.bind fun text => (cutName name ((text.length + 1) * (text.length + 1)) text 0 name.length).bind fun text =>
        removeUsers names (list.eraseIdx j) (some text)

def usersOf (kind : Kind) (names : List (Kind × Text × BitVec 32)) : List (Text × BitVec 32) :=
  (names.filter (·.1 = kind)).map (·.2)

/-- Adds a user that is not there to the list and to the text. -/
def addUser (r : Reservation) (name : Text) (uid : BitVec 32) : Reservation :=
  if uid ∈ r.userList then r
  else
    let users := r.users.getD []
    { r with
      users := some (users ++ (if users = [] then [] else [',']) ++ (if r.userNot then ['-'] else []) ++ name)
      userList := r.userList ++ [uid] }

/-- What is left of the text; an empty one is freed. -/
def textLeft (buf : Option (List Char)) : Option Text := buf.bind fun buf =>
  if stringAt buf 0 = [] then none else some (stringAt buf 0)

/-- The users to remove; whether all were there.  Without a text the list is one of permitted users again. -/
def minusUsers (r : Reservation) (names : List (Text × BitVec 32)) : Option (Reservation × Bool) :=
  (removeUsers names r.userList (r.users.map (· ++ [nul]))).map fun (list, buf, ok) =>
    if ok then ({ r with userList := list, users := textLeft buf, userNot := r.userNot && (textLeft buf).isSome }, true)
    else ({ r with userList := list, users := buf.map (stringAt · 0) }, false)

/-- Modification of the existing list: users are removed, then added. -/
def changeUsers (r : Reservation) (change : List (Kind × Text × BitVec 32) × Bool × Bool) : Option (Reservation × Bool) :=
  (if change.2.1 then minusUsers r (usersOf .minus change.1) else some (r, true)).map fun removed =>
    if removed.2 && change.2.2 then ((usersOf .plus change.1).foldl (fun r e => addUser r e.1 e.2) removed.1, true)
    else removed

/-- `_update_uid_list`; whether it succeeds. -/
def updateUidList (uidFromString : Text → Option (BitVec 32)) (r : Reservation) (users : Text) :
    Option (Reservation × Bool) :=
  match parseNames uidFromString (Text.words ',' users) false with
  | none => some (r, false)
  | some names =>
    if !hasKind .plus names && !hasKind .minus names then
      -- just a reset of user list
      some ({ r with
          users := if users = [] then none else some users
          userList := names.map (·.2.2)
          userNot := false }, true)
    else
      let notList := r.userNot || (decide (r.userList = []) && hasKind .minus names)
      changeUsers { r with userNot := notList } (signs notList names)

/-! ## What changes -/

/-- The accounts of a reservation put in the place of another's. -/
def Reservation.withAccounts (r r' : Reservation) : Reservation :=
  { r with accounts := r'.accounts, accountList := r'.accountList, accountNot := r'.accountNot }

section

variable (r : Reservation)
include r

theorem minusAccounts_fst (names : List Text) :
    (minusAccounts r names).1 = r.withAccounts (minusAccounts r names).1 := by
  unfold minusAccounts
  dsimp only
  split_ifs <;> rfl

theorem changeAccounts_fst {α : Type} (change : List (Kind × Text × α) × Bool × Bool) :
    (changeAccounts r change).1 = r.withAccounts (changeAccounts r change).1 := by
  have hminus := minusAccounts_fst r (namesOf .minus change.1)
  unfold changeAccounts
  dsimp only
  split_ifs
  · rw [hminus]
    rfl
  · exact hminus
  · rfl
  · rfl

theorem updateAccountList_fst (isAccountValid : Text → Bool) (accounts : Text) :
    (updateAccountList isAccountValid r accounts).1 =
      r.withAccounts (updateAccountList isAccountValid r accounts).1 := by
  fun_cases updateAccountList with
  | case1 | case2 => rfl
  | case3 =>
    rw [changeAccounts_fst]
    rfl

theorem minusAccounts_snd (names : List Text) :
    (minusAccounts r names).2 = (!decide (r.accountList = []) && (removeAccounts names r.accountList).2) := by
  unfold minusAccounts
  dsimp only
  split_ifs with hl hall
  · simp [hl]
  · simp [hl, hall]
  · simp [hall]

theorem changeAccounts_snd {α : Type} (change : List (Kind × Text × α) × Bool × Bool) :
    (changeAccounts r change).2 = (!change.2.1 ||
      (!decide (r.accountList = []) && (removeAccounts (namesOf .minus change.1) r.accountList).2)) := by
  rw [← minusAccounts_snd]
  unfold changeAccounts
  dsimp only
  cases change.2.1 with
  | true =>
    rw [if_pos rfl]
    split_ifs with h
    · rw [Bool.and_eq_true] at h
      simp [h.1]
    · simp
  | false => cases change.2.2 <;> rfl

end

variable {r r' : Reservation}

theorem updateAccountList_snd_congr {isAccountValid : Text → Bool}
    (hl : r'.accountList = r.accountList) (hn : r'.accountNot = r.accountNot) (accounts : Text) :
    (updateAccountList isAccountValid r' accounts).2 = (updateAccountList isAccountValid r accounts).2 := by
  unfold updateAccountList
  split
  · rfl
  next names _ =>
    by_cases hset : (!hasKind .plus names && !hasKind .minus names) = true
    · rw [if_pos hset, if_pos hset]
    · rw [if_neg hset, if_neg hset, changeAccounts_snd, changeAccounts_snd, hl, hn]

/-- Whether the names to remove are all removed, and no text is left. -/
def clearsUsers (r : Reservation) (names : List (Text × BitVec 32)) : Bool :=
  match removeUsers names r.userList (r.users.map (· ++ [nul])) with
  | some (_, buf, true) => (textLeft buf).isNone
  | _ => false

/-- `user_not` after `_update_uid_list`: a plain list ends it; a first `-name` begins it; and it ends when the
    last user is cut out of the text. -/
def userNotAfter (uidFromString : Text → Option (BitVec 32)) (r : Reservation) (users : Text) : Bool :=
  match parseNames uidFromString (Text.words ',' users) false with
  | none => r.userNot
  | some names =>
    if !hasKind .plus names && !hasKind .minus names then false
    else
      let notList := r.userNot || (decide (r.userList = []) && hasKind .minus names)
      notList && !((signs notList names).2.1 && clearsUsers r (usersOf .minus (signs notList names).1))

/-- The users of a reservation put in the place of another's, but not `user_not`. -/
def Reservation.withUsers (r r' : Reservation) (notList : Bool) : Reservation :=
  { r with users := r'.users, userList := r'.userList, userNot := notList }

theorem withUsers_trans {r'' : Reservation} {n m : Bool} (h : r' = r.withUsers r' n)
    (h' : r'' = r'.withUsers r'' m) : r'' = r.withUsers r'' m :=
  calc
    r'' = r'.withUsers r'' m := h'
    _ = (r.withUsers r' n).withUsers r'' m := by rw [← h]
    _ = r.withUsers r'' m := rfl

theorem addUser_eq (r : Reservation) (name : Text) (uid : BitVec 32) :
    addUser r name uid = r.withUsers (addUser r name uid) r.userNot := by
  unfold addUser
  split_ifs <;> rfl

theorem foldl_addUser_eq (names : List (Text × BitVec 32)) (r : Reservation) :
    names.foldl (fun r e => addUser r e.1 e.2) r =
      r.withUsers (names.foldl (fun r e => addUser r e.1 e.2) r) r.userNot := by
  induction names generalizing r with
  | nil => rfl
  | cons e names ih =>
    have hadd := addUser_eq r e.1 e.2
    have hnot : (addUser r e.1 e.2).userNot = r.userNot := by rw [hadd, Reservation.withUsers]
    rw [foldl_cons]
    refine withUsers_trans hadd ?_
    rw [← hnot]
    exact ih _

variable {names : List (Text × BitVec 32)}

theorem minusUsers_eq {ok : Bool}
    (h : minusUsers r names = some (r', ok)) : r' = r.withUsers r' (r.userNot && !clearsUsers r names) := by
  obtain ⟨⟨list, buf, all⟩, hrem, heq⟩ := Option.map_eq_some_iff.1 h
  unfold clearsUsers
  rw [hrem]
  cases all with
  | true | false =>
    cases heq
    simp [Reservation.withUsers]

theorem changeUsers_eq {change : List (Kind × Text × BitVec 32) × Bool × Bool} {ok : Bool}
    (h : changeUsers r change = some (r', ok)) :
    r' = r.withUsers r' (r.userNot && !(change.2.1 && clearsUsers r (usersOf .minus change.1))) := by
  obtain ⟨⟨r1, ok1⟩, hminus, hplus⟩ := Option.map_eq_some_iff.1 h
  have h1 : r1 = r.withUsers r1 (r.userNot && !(change.2.1 && clearsUsers r (usersOf .minus change.1))) := by
    cases hm : change.2.1 with
    | true =>
      rw [hm, if_pos rfl] at hminus
      simpa using minusUsers_eq hminus
    | false =>
      rw [hm, if_neg (by simp)] at hminus
      cases hminus
      simp [Reservation.withUsers]
  split_ifs at hplus with hp
  · cases hplus
    have hnot : r1.userNot = (r.userNot && !(change.2.1 && clearsUsers r (usersOf .minus change.1))) := by
      rw [h1, Reservation.withUsers]
    refine withUsers_trans h1 ?_
    rw [← hnot]
    exact foldl_addUser_eq _ r1
  · cases hplus
    exact h1

theorem updateUidList_eq {uidFromString : Text → Option (BitVec 32)} {users : Text} {ok : Bool}
    (h : updateUidList uidFromString r users = some (r', ok)) :
    r' = r.withUsers r' (userNotAfter uidFromString r users) := by
  unfold updateUidList at h
  unfold userNotAfter
  split at h
  · cases h
    rfl
  next names _ =>
    by_cases hset : (!hasKind .plus names && !hasKind .minus names) = true
    · rw [if_pos hset] at h ⊢
      cases h
      rfl
    · rw [if_neg hset] at h ⊢
      exact changeUsers_eq h

/-- The request leaves `user_not` alone: a plain list is for permitted users only; a list of users that are not
    permitted keeps some of its text when users are taken off it; and no such list begins. -/
def UserNotKept (uidFromString : Text → Option (BitVec 32)) (r : Reservation) (users : Text) : Prop :=
  match parseNames uidFromString (Text.words ',' users) false with
  | none => True
  | some names =>
    if !hasKind .plus names && !hasKind .minus names then r.userNot = false
    else if r.userNot then ¬(hasKind .plus names = true ∧ clearsUsers r (usersOf .plus names) = true)
    else ¬(r.userList = [] ∧ hasKind .minus names = true)

theorem usersOf_minus_signs (names : List (Kind × Text × BitVec 32)) :
    usersOf .minus (signs true names).1 = usersOf .plus names := by
  have hswap : ∀ k : Kind, decide (k.swap = .minus) = decide (k = .plus) := fun k => by cases k <;> rfl
  simp only [signs, if_true, usersOf]
  induction names with
  | nil => rfl
  | cons e names ih =>
    rw [map_cons, filter_cons, filter_cons]
    rw [hswap]
    split_ifs
    · rw [map_cons, map_cons, ih]
    · exact ih

theorem signs_minus (names : List (Kind × Text × BitVec 32)) : (signs true names).2.1 = hasKind .plus names := by
  simp only [signs, if_true]
  cases hasKind .minus names <;> cases hasKind .plus names <;> rfl

theorem clearsUsers_of_nil (hr : r.userList = []) (hn : names ≠ []) : clearsUsers r names = false := by
  obtain ⟨e, names, rfl⟩ := exists_cons_of_ne_nil hn
  simp [clearsUsers, removeUsers, hr]

theorem usersOf_ne_nil {kind : Kind} {names : List (Kind × Text × BitVec 32)} (h : hasKind kind names = true) :
    usersOf kind names ≠ [] := by
  obtain ⟨e, he, hk⟩ := any_eq_true.1 h
  have hmem : e.2 ∈ usersOf kind names := mem_map.2 ⟨e, mem_filter.2 ⟨he, hk⟩, rfl⟩
  exact ne_nil_of_mem hmem

theorem userNotAfter_eq_iff (uidFromString : Text → Option (BitVec 32)) (users : Text) :
    userNotAfter uidFromString r users = r.userNot ↔ UserNotKept uidFromString r users := by
  unfold userNotAfter UserNotKept
  cases parseNames uidFromString (Text.words ',' users) false with
  | none => simp
  | some names =>
    dsimp only
    split_ifs with hset hnot
    · exact eq_comm
    · cases hp : hasKind .plus names <;> simp [hnot, usersOf_minus_signs, signs_minus, hp]
    · rw [Bool.not_eq_true] at hnot
      by_cases hstart : r.userList = [] ∧ hasKind .minus names = true
      · -- a list of users that are not permitted begins, and nobody can be taken off it
        have hclear : (hasKind .plus names && clearsUsers r (usersOf .plus names)) = false := by
          cases hp : hasKind .plus names with
          | false => rfl
          | true => rw [clearsUsers_of_nil hstart.1 (usersOf_ne_nil hp), Bool.and_false]
        simp [hnot, hstart, usersOf_minus_signs, signs_minus, hclear]
      · have hno : (decide (r.userList = []) && hasKind .minus names) = false := by simpa using hstart
        simp [hnot, hno, hstart]

end Slurmpp.Resv
