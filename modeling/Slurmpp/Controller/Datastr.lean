/-
  The texts of the controllers: pool values `<n>,<node_1>,...,<node_n>`, and the string code that reads and rebuilds
  them (`datastr.c`, and `do_allocate` of `pro_req.c` up to the point where the swap is sent).

  `_allocate_node` takes the first `k` names out; `merge_res_str` adds the names of a second text and counts the
  TOKENS of both.  What C leaves undefined is a `Fault`.  `Counted v names` is what the readers need of a text;
  `Counted.doAllocate` and `Counted.mergeResStr` say what the two writers make of it, and nothing later looks at the
  string code again.
-/
import Slurmpp.Lib.Text

namespace Slurmpp.Controller

open List

open Text (words joined closed)

/-- Where the C code leaves its arrays, and what it does then is undefined. -/
inductive Fault
  /-- `split_str` stores more tokens than the array has slots. -/
  | tokens
  /-- a token is read that `split_str` did not store. -/
  | index
  /-- a slot of `ctrl_ids_2`, `node_alloc` or `mem_list` outside the array. -/
  | slot
  /-- `strcpy` from the NULL that `get_ctrl_res` returns for a missing key. -/
  | null
deriving DecidableEq, Repr

/-- The configuration all controllers share: `part_size`, and `mem_list` with its length
    `num_ctrl`. -/
structure Cluster where
  partSize : Nat
  memList : List Text
deriving DecidableEq, Repr

def Cluster.numCtrl (K : Cluster) : Nat := K.memList.length

/-! ## The string functions -/

def intToStr (num : Int) : Text := Text.ofInt num

def strToInt (str : Text) : Int := Text.toInt str

/-- `split_str` into an array of `size` pointers; `none` when it runs over the end. -/
def splitStr (str : Text) (delim : Char) (size : Nat) : Option (List Text) :=
  if (words delim str).length ≤ size then some (words delim str) else none

/-- `merge_res_str`: the count is that of all tokens less one, whatever the leading count said;
    the names of `part1` are each followed by a comma, those of `part2` only separated. -/
def Cluster.mergeResStr (K : Cluster) (part1 part2 : Text) : Option Text := do
  let p1 ← splitStr part1 ',' (K.partSize + 1)
  let p2 ← splitStr part2 ',' (K.partSize + 1)
  some (intToStr (p1.length + p2.length - 1) ++ ',' :: (closed ',' p1.tail ++ joined ',' p2))

/-- The two texts `_allocate_node` builds before its swap: the nodes it takes and the value that
    stays.  It reads the tokens `1 .. numNodeBefore`. -/
def allocateNode (seenValueArray : List Text) (numNodeAllocate numNodeBefore : Nat) : Option (Text × Text) :=
  if numNodeBefore < seenValueArray.length then
    let numNodeLeft := numNodeBefore - numNodeAllocate
    let nodelist := joined ',' ((seenValueArray.drop 1).take numNodeAllocate)
    let newValue := intToStr numNodeLeft ++
      ',' :: joined ',' ((seenValueArray.drop (numNodeAllocate + 1)).take numNodeLeft)
    some (nodelist, newValue)
  else none

/-- What `do_allocate` comes to before it touches the store. -/
inductive Attempt
  | fault (f : Fault)
  /-- the value counts no node: `do_allocate` returns -1. -/
  | refused
  /-- swap in `newValue` and, if that works, keep the `num` nodes of `nodelist`. -/
  | swap (num : Nat) (nodelist newValue : Text)
deriving DecidableEq, Repr

def Cluster.doAllocate (K : Cluster) (ctrlRes : Text) (numMoreNode : Nat) : Attempt :=
  match splitStr ctrlRes ',' (K.partSize + 1) with
  | none => .fault .tokens
  -- no token at all: `p[0]` was never written
  | some [] => .fault .index
  | some (p0 :: ps) =>
    let numNode := strToInt p0
    if 0 < numNode then
      let numNodeAttempt := min numNode.toNat numMoreNode
      match allocateNode (p0 :: ps) numNodeAttempt numNode.toNat with
      | none => .fault .index
      | some (nodelist, newValue) => .swap numNodeAttempt nodelist newValue
    else .refused

/-- `find_exist`'s loop, from slot `count` on.  It also STOPS, with the index reached, at an
    empty slot. -/
def findExistFrom (target : Text) (size : Nat) : List Text → Nat → Option Nat
  | [], count => some count
  | tmp :: rest, count =>
    if tmp = [] then some count
    else if tmp = target then some count
    else if count + 1 ≥ size then none
    else findExistFrom target size rest (count + 1)

/-- `find_exist`; `none` is its -1. -/
def findExist (source : List Text) (target : Text) (size : Nat) : Option Nat :=
  if source.getD 0 [] = [] then none else findExistFrom target size source 0

/-! ## Pool values -/

/-- The pool value of a list of names, `<n>,<name_1>,...,<name_n>`. -/
def poolText (names : List Text) : Text := Text.ofNat names.length ++ ',' :: joined ',' names

/-- The text `merge_res_str` writes: the old names closed, the added ones joined. -/
def mergeText (names added : List Text) : Text :=
  Text.ofNat (names.length + added.length) ++ ',' :: (closed ',' names ++ joined ',' added)

/-- The tokens of `v` are the count of `names` and then exactly `names`. -/
def Counted (v : Text) (names : List Text) : Prop :=
  words ',' v = Text.ofNat names.length :: names

def namesOf (v : Text) : List Text := (words ',' v).tail

instance (v : Text) (names : List Text) : Decidable (Counted v names) :=
  inferInstanceAs (Decidable (_ = _))

variable {names added source : List Text} {v target : Text}

theorem Counted.namesOf_eq (h : Counted v names) : namesOf v = names := by
  rw [namesOf, h, tail_cons]

theorem Counted.isWord (h : Counted v names) : ∀ n ∈ names, Text.IsWord ',' n := by
  intro n hn
  apply Text.isWord_of_mem_words
  rw [h]
  exact mem_cons_of_mem _ hn

theorem counted_poolText (h : ∀ n ∈ names, Text.IsWord ',' n) : Counted (poolText names) names := by
  have hc : Text.IsWord ',' (Text.ofNat names.length) := Text.isWord_ofNat (by decide)
  rw [Counted, poolText, hc.words_append, Text.words_joined h]

theorem counted_mergeText (hn : ∀ n ∈ names, Text.IsWord ',' n)
    (ha : ∀ n ∈ added, Text.IsWord ',' n) : Counted (mergeText names added) (names ++ added) := by
  have hc : Text.IsWord ',' (Text.ofNat (names.length + added.length)) :=
    Text.isWord_ofNat (by decide)
  rw [Counted, mergeText, hc.words_append, Text.words_closed_append hn, Text.words_joined ha, length_append]

theorem mergeText_eq_poolText (h : added ≠ []) : mergeText names added = poolText (names ++ added) := by
  rw [mergeText, poolText, Text.closed_append_joined h, length_append]

/-! ## What the two writers make of a counted text -/

theorem splitStr_eq {str : Text} {size : Nat} {ts : List Text} (h : words ',' str = ts) :
    splitStr str ',' size = if ts.length ≤ size then some ts else none := by
  rw [splitStr, h]

/-- **`do_allocate` on a counted text**: it refuses an empty pool; otherwise it offers to take as
    many names as are wanted, from the front, and to leave a pool value of the others.  The only
    fault is a text with more than `part_size` names. -/
theorem Counted.doAllocate (h : Counted v names) (K : Cluster) (more : Nat) :
    K.doAllocate v more =
      if K.partSize < names.length then .fault .tokens
      else if names = [] then .refused
      else .swap (min names.length more) (joined ',' (names.take (min names.length more)))
        (poolText (names.drop (min names.length more))) := by
  rw [Cluster.doAllocate, splitStr_eq h, length_cons]
  by_cases hlen : K.partSize < names.length
  · rw [if_neg (by omega), if_pos hlen]
  · rw [if_pos (by omega), if_neg hlen]
    have hnum : strToInt (Text.ofNat names.length) = names.length := Text.toInt_ofNat
    cases names with
    | nil =>
      rw [if_pos rfl]
      simp only [hnum]
      rfl
    | cons n ns =>
      rw [if_neg (by simp)]
      have hpos : (0 : Int) < ((n :: ns).length : Int) := by simp
      simp only [hnum, hpos, if_true, Int.toNat_natCast]
      rw [allocateNode, if_pos (by simp)]
      -- the count read is the count of names, so `take` of what is left takes all of it
      have hleft : ∀ k, ((n :: ns).drop k).take ((n :: ns).length - k) = (n :: ns).drop k := by
        intro k
        rw [← length_drop, take_length]
      simp only [drop_succ_cons, drop_zero, hleft, poolText, length_drop, intToStr]
      rfl

/-- **`merge_res_str` on a counted text**: the names of both, counted. -/
theorem Counted.mergeResStr (h : Counted v names) (K : Cluster) (a : Text) :
    K.mergeResStr v a =
      if names.length ≤ K.partSize ∧ (words ',' a).length ≤ K.partSize + 1 then
        some (mergeText names (words ',' a)) else none := by
  rw [Cluster.mergeResStr, splitStr_eq h, splitStr_eq rfl, length_cons]
  by_cases h1 : names.length ≤ K.partSize
  · by_cases h2 : (words ',' a).length ≤ K.partSize + 1
    · rw [if_pos (by omega), if_pos h2, if_pos ⟨h1, h2⟩]
      have hcount : ((names.length + 1 : Nat) : Int) + ((words ',' a).length : Int) - 1 =
          ((names.length + (words ',' a).length : Nat) : Int) := by
        push_cast
        omega
      simp only [Option.bind_eq_bind, Option.bind_some, length_cons, tail_cons, hcount]
      rfl
    · have hno : ¬(names.length ≤ K.partSize ∧ (words ',' a).length ≤ K.partSize + 1) :=
        fun hb => h2 hb.2
      rw [if_neg h2, if_neg hno, if_pos (by omega)]
      rfl
  · have hno : ¬(names.length ≤ K.partSize ∧ (words ',' a).length ≤ K.partSize + 1) :=
      fun hb => h1 hb.1
    have hlong : ¬names.length + 1 ≤ K.partSize + 1 := by omega
    rw [if_neg hno, if_neg hlong]
    rfl

/-- **`find_exist` is no membership test**: next to a first slot that is filled with another name
    and a second one that is empty, it returns the index of the empty slot. -/
theorem findExist_of_second_empty (h0 : source.getD 0 [] ≠ []) (hne : source.getD 0 [] ≠ target)
    (h1 : source.getD 1 [] = []) (size : Nat) : findExist source target size = if size ≤ 1 then none else some 1 := by
  rw [findExist, if_neg h0]
  cases source with
  | nil => simp at h0
  | cons a rest =>
    rw [getD_cons_zero] at h0 hne
    rw [findExistFrom, if_neg h0, if_neg hne]
    by_cases hs : size ≤ 1
    · rw [if_pos hs, if_pos (by omega)]
    · rw [if_neg hs, if_neg (by omega)]
      cases rest with
      | nil => rfl
      | cons b rest =>
        have hb : b = [] := by simpa using h1
        rw [findExistFrom, if_pos hb]

theorem findExist_of_first {size : Nat} (h0 : source.getD 0 [] ≠ []) (heq : source.getD 0 [] = target) :
    findExist source target size = some 0 := by
  rw [findExist, if_neg h0]
  cases source with
  | nil => simp at h0
  | cons a rest =>
    rw [getD_cons_zero] at h0 heq
    rw [findExistFrom, if_neg h0, if_pos heq]

theorem findExist_of_empty {size : Nat}
    (h0 : source.getD 0 [] = []) : findExist source target size = none := if_pos h0

end Slurmpp.Controller
