import Xv6.Buddy.Alloc
import Xv6.Lib.Cells
import Xv6.Lib.Fuel
import Xv6.Strings.Memmove

/-!
`strjoin` (`kernel/string.c`, with `strlen` and `safestrcpy`), which `exec`
uses for the command line of a process.

The strings are in memory, and the vector of pointers to them is a list.
The lengths are added up first, in an `int`; then the strings are copied one
behind the other, each with a terminating 0 that a blank overwrites. The
last blank becomes the terminating 0 of the whole. Without a string there is
no last blank: then the 0 goes to the byte before the block.

Every store is noted, so that one can say where they went.
-/

namespace Xv6.Strings

open Lib Buddy

/-! ### The code -/

abbrev Byte : Type := BitVec 8

/-- Memory, and the addresses stored to so far. -/
structure Trace where
  mem : Mem
  stores : List Addr

def Trace.store (t : Trace) (a : Addr) (b : Byte) : Trace where
  mem := Function.update t.mem a b
  stores := a :: t.stores

/-- The loop of `strlen` from `s` on. -/
def strlen (m : Mem) : (fuel : ℕ) → (s : Addr) → Option ℤ
  | 0, _ => none
  | fuel + 1, s => if m s = 0 then some 0 else (strlen m fuel (s + 1)).map (· + 1)

/-- The loop of `safestrcpy`, with room for `n` characters besides the 0. -/
def safestrcpyLoop : (n : ℕ) → (s t : Addr) → Trace → Trace
  | 0, s, _, tr => tr.store s 0
  | n + 1, s, t, tr =>
      let b := tr.mem t
      let tr := tr.store s b
      if b ≠ 0 then safestrcpyLoop n (s + 1) (t + 1) tr else tr.store (s + 1) 0

def safestrcpy (s t : Addr) (n : ℤ) (tr : Trace) : Trace :=
  if n ≤ 0 then tr else safestrcpyLoop (n - 1).toNat s t tr

/-- The first loop of `strjoin`: the number of bytes. -/
def joinLength (m : Mem) (fuel : ℕ) : (argv : List Addr) → (n : ℤ) → Option ℤ
  | [], n => some n
  | s :: argv, n => (strlen m fuel s).bind fun len => joinLength m fuel argv (cint (n + (len + 1)))

/-- The second loop: the copies, from `d` on. -/
def joinLoop (fuel : ℕ) : (argv : List Addr) → (d : Addr) → Trace → Option (Addr × Trace)
  | [], d, tr => some (d, tr)
  | s :: argv, d, tr =>
      (strlen tr.mem fuel s).bind fun n =>
        let tr := safestrcpy d s (cint (n + 1)) tr
        let d := d + BitVec.ofInt 64 n
        let tr := tr.store d 32
        joinLoop fuel argv (d + 1) tr

/-- The block for `n` bytes is `bdMalloc n`. The result is the block, and
memory at the end. -/
def strjoin (bdMalloc : ℤ → Addr) (fuel : ℕ) (argv : List Addr) (m : Mem) : Option (Addr × Trace) :=
  (joinLength m fuel argv 0).bind fun n =>
    let od := bdMalloc n
    (joinLoop fuel argv od ⟨m, []⟩).bind fun (d, tr) =>
      some (od, tr.store (d - 1) 0)

/-! ### What it should do -/

/-- The strings with a blank behind each. -/
def spaced (strs : List (List Byte)) : List Byte := strs.flatMap (· ++ [32])

/-- The vector has pointers to the strings. -/
def ArgVector (m : Mem) : List Addr → List (List Byte) → Prop :=
  List.Forall₂ fun a str => 0 ∉ str ∧ Spells m a (str ++ [0])

/-- The block starts with the strings, separated by blanks and with a 0 at the
end, and all stores went to the block. -/
structure Joins (od : Addr) (size : ℕ) (strs : List (List Byte)) (tr : Trace) : Prop where
  text : Spells tr.mem od ([32].intercalate strs ++ [0])
  inside : ∀ a ∈ tr.stores, (a - od).toNat < size

variable {m : Mem} {tr : Trace} {a s t d od : Addr} {str done : List Byte} {strs : List (List Byte)}
  {argv : List Addr} {n size : ℕ}

/-! ### Strings -/

theorem settles_strlen (h : Spells m a (str ++ [0])) (hnul : 0 ∉ str) :
    Settles (fun fuel => strlen m fuel a) str.length := by
  induction str generalizing a with
  | nil =>
      refine Settles.succ rfl ?_
      simp only [strlen, h.1, if_true]
      exact .pure _
  | cons b str ih =>
      obtain ⟨hb, hrest⟩ := h
      simp only [List.mem_cons, not_or] at hnul
      refine Settles.succ rfl ?_
      simp only [strlen, hb, if_neg (Ne.symm hnul.1), Option.map_eq_bind]
      rw [List.length_cons, Nat.cast_succ]
      exact (ih hrest hnul.2).bind (.pure _)

/-- Stores one byte after the other. -/
def Trace.puts (tr : Trace) : Addr → List Byte → Trace
  | _, [] => tr
  | p, b :: l => (tr.store p b).puts (p + 1) l

theorem mem_puts (tr : Trace) (p : Addr) (l : List Byte) : (tr.puts p l).mem = put tr.mem p l := by
  induction l generalizing tr p with
  | nil => rfl
  | cons b l ih => exact ih _ _

theorem stores_puts {l : List Byte} {p : Addr} (ha : a ∈ (tr.puts p l).stores)
    (hlen : l.length ≤ 2 ^ 64) : a ∈ tr.stores ∨ (a - p).toNat < l.length := by
  induction l generalizing tr p with
  | nil => exact .inl ha
  | cons b l ih =>
      rw [List.length_cons] at hlen ⊢
      rcases ih ha (by omega) with hmem | hlt
      · rcases List.mem_cons.mp hmem with rfl | hmem
        · exact .inr (by simp)
        · exact .inl hmem
      · exact .inr (toNat_sub_le_succ.trans_lt (by omega))

/-- The range is away from the string. -/
def Away (od : Addr) (size : ℕ) (a : Addr) (str : List Byte) : Prop :=
  ∀ x, (x - od).toNat < size → str.length < (x - a).toNat

theorem safestrcpyLoop_eq (h : Spells tr.mem t (str ++ [0])) (hnul : 0 ∉ str)
    (haway : Away s (str.length + 1) t str) :
    safestrcpyLoop str.length s t tr = tr.puts s (str ++ [0]) := by
  induction str generalizing s t tr with
  | nil => rfl
  | cons b str ih =>
      obtain ⟨hb, hrest⟩ := h
      simp only [List.mem_cons, not_or] at hnul
      rw [List.length_cons] at haway
      have hstep : ∀ x, (x - s).toNat < str.length + 1 + 1 →
          str.length < (x - (t + 1)).toNat := by
        intro x hx
        have hfar := haway x hx
        rw [List.length_cons] at hfar
        have hne : x - t ≠ 0 := fun h0 => by simp [h0] at hfar
        rw [← sub_sub, toNat_sub_one hne]
        omega
      simp only [List.length_cons, safestrcpyLoop, hb]
      rw [if_pos (Ne.symm hnul.1)]
      have hrest : Spells tr.mem (t + 1) (str ++ [0]) := hrest
      refine ih (hrest.update ?_) hnul.2 fun x hx => ?_
      · have := hstep s (by simp)
        rw [List.length_append, List.length_singleton]
        omega
      · exact hstep x (toNat_sub_le_succ.trans_lt (by omega))

/-! ### The loops -/

theorem spaced_cons : spaced (str :: strs) = str ++ 32 :: spaced strs := by
  simp [spaced]

theorem settles_joinLength {n : ℤ} (h : ArgVector m argv strs) (hn : 0 ≤ n)
    (hlen : n + (spaced strs).length < 2 ^ 31) :
    Settles (fun fuel => joinLength m fuel argv n) (n + (spaced strs).length) := by
  induction h generalizing n with
  | nil =>
      simp only [joinLength, spaced, List.flatMap_nil, List.length_nil, Nat.cast_zero, add_zero]
      exact .pure _
  | @cons s str argv strs hs _ ih =>
      rw [spaced_cons, List.length_append, List.length_cons] at hlen ⊢
      push_cast at hlen ⊢
      simp only [joinLength]
      refine (settles_strlen hs.2 hs.1).bind ?_
      have hint : cint (n + (str.length + 1)) = n + (str.length + 1) := by
        rw [cint, Int.bmod_eq_of_le (by omega) (by omega)]
      rw [hint, show n + (str.length + ((spaced strs).length + 1)) =
        n + (str.length + 1) + (spaced strs).length by ring]
      exact ih (by omega) (by omega)

/-- One round: the string and a blank are added to what is there. -/
def addString (d s : Addr) (str : List Byte) (tr : Trace) : Trace :=
  (safestrcpy d s (cint (str.length + 1)) tr).store (d + BitVec.ofInt 64 str.length) 32

theorem addString_eq (h : Spells tr.mem s (str ++ [0])) (hnul : 0 ∉ str)
    (hlen : str.length + 1 < 2 ^ 31) (haway : Away d (str.length + 1) s str) :
    addString d s str tr = (tr.puts d (str ++ [0])).store (d + BitVec.ofNat 64 str.length) 32 := by
  have hint : cint ((str.length : ℤ) + 1) = str.length + 1 := by
    rw [cint, Int.bmod_eq_of_le (by omega) (by omega)]
  rw [addString, hint, safestrcpy, if_neg (by omega), add_sub_cancel_right, Int.toNat_natCast,
    safestrcpyLoop_eq h hnul haway, BitVec.ofInt_natCast]

/-- A block away from a string is not all of memory. -/
theorem Away.size_le (h : Away od size s str) : size ≤ (s - od).toNat := by
  by_contra hlt
  have := h s (by omega)
  simp at this

/-- What a round leaves alone, and what it adds. -/
theorem addString_spec (hd : d = od + BitVec.ofNat 64 done.length)
    (hfits : done.length + (str.length + 1) ≤ size) (hdone : Spells tr.mem od done)
    (h : Spells tr.mem s (str ++ [0])) (hnul : 0 ∉ str) (hlen : str.length + 1 < 2 ^ 31)
    (haway : Away od size s str) : Spells (addString d s str tr).mem od (done ++ str ++ [32]) ∧
      (∀ x, size ≤ (x - od).toNat → (addString d s str tr).mem x = tr.mem x) ∧
      ∀ a ∈ (addString d s str tr).stores, a ∈ tr.stores ∨ (a - od).toNat < size := by
  have hsize : size < 2 ^ 64 := haway.size_le.trans_lt (s - od).isLt
  have hdist : ∀ x : Addr, (x - d).toNat = if done.length ≤ (x - od).toNat
      then (x - od).toNat - done.length else 2 ^ 64 + (x - od).toNat - done.length := by
    intro x
    rw [hd, toNat_sub_add (by omega)]
  have hin : ∀ x : Addr, (x - d).toNat < str.length + 1 → (x - od).toNat < size := by
    intro x hx
    rw [hdist] at hx
    split_ifs at hx <;> omega
  have hblank : (d + BitVec.ofNat 64 str.length - od).toNat < size := by
    refine hin _ ?_
    rw [add_sub_cancel_left, BitVec.toNat_ofNat, Nat.mod_eq_of_lt (by omega)]
    omega
  have hcount : (str ++ [0]).length = str.length + 1 := by simp
  have hcopied : Spells (put tr.mem d (str ++ [0])) od (done ++ str ++ 0 :: []) := by
    rw [List.append_assoc]
    refine spells_append.mpr ⟨hdone.congr (fun x hx => put_of_not ?_) (by omega), ?_⟩
    · rw [hdist, if_neg (by omega), hcount]
      omega
    · rw [← hd]
      exact spells_put (by omega)
  rw [addString_eq h hnul hlen fun x hx => haway x (hin x hx)]
  refine ⟨?_, fun x hx => ?_, fun a ha => ?_⟩
  · have hset := hcopied.set (b := 32) (by simp; omega)
    rwa [List.length_append, add_ofNat_add, ← hd, ← mem_puts] at hset
  · have hout : str.length + 1 ≤ (x - d).toNat := by
      by_contra hlt
      have := hin x (by omega)
      omega
    have hne : x ≠ d + BitVec.ofNat 64 str.length := by
      rintro rfl
      omega
    refine (Function.update_of_ne hne _ _).trans ?_
    rw [mem_puts, put_of_not (by omega)]
  · rcases List.mem_cons.mp ha with rfl | ha
    · exact .inr hblank
    · rcases stores_puts ha (by omega) with hold | hnew
      · exact .inl hold
      · exact .inr (hin a (by omega))

theorem ArgVector.congr {m' : Mem} (h : ArgVector m argv strs)
    (haway : List.Forall₂ (Away od size) argv strs)
    (hframe : ∀ x, size ≤ (x - od).toNat → m' x = m x) (hlen : (spaced strs).length ≤ 2 ^ 64) :
    ArgVector m' argv strs := by
  induction h with
  | nil => exact .nil
  | cons hs _ ih =>
      obtain _ | ⟨hsaway, hrest⟩ := haway
      rw [spaced_cons, List.length_append, List.length_cons] at hlen
      refine .cons ⟨hs.1, hs.2.congr (fun x hx => hframe x ?_) ?_⟩ (ih hrest (by omega))
      · rw [List.length_append, List.length_singleton] at hx
        by_contra hlt
        have := hsaway x (by omega)
        omega
      · rw [List.length_append, List.length_singleton]
        omega

theorem settles_joinLoop (h : ArgVector tr.mem argv strs)
    (haway : List.Forall₂ (Away od size) argv strs) (hdone : Spells tr.mem od done)
    (hfits : done.length + (spaced strs).length ≤ size) (hlen : (spaced strs).length < 2 ^ 31)
    (hin : ∀ a ∈ tr.stores, (a - od).toNat < size) :
    ∃ tr', Settles (fun fuel => joinLoop fuel argv (od + BitVec.ofNat 64 done.length) tr)
        (od + BitVec.ofNat 64 (done ++ spaced strs).length, tr') ∧
      Spells tr'.mem od (done ++ spaced strs) ∧ ∀ a ∈ tr'.stores, (a - od).toNat < size := by
  induction argv generalizing strs done tr with
  | nil =>
      cases h
      simp only [joinLoop, spaced, List.flatMap_nil, List.append_nil]
      exact ⟨tr, .pure _, hdone, hin⟩
  | cons s argv ih =>
      obtain _ | ⟨⟨hnul, hs⟩, hrest⟩ := h
      obtain _ | ⟨hsaway, hrestaway⟩ := haway
      rename_i str strs
      rw [spaced_cons, List.length_append, List.length_cons] at hfits hlen
      obtain ⟨htext, hframe, hstores⟩ :=
        addString_spec rfl (by omega) hdone hs hnul (by omega) hsaway
      have hnext : od + BitVec.ofNat 64 done.length + BitVec.ofInt 64 str.length + 1 =
          od + BitVec.ofNat 64 (done ++ str ++ [32]).length := by
        rw [BitVec.ofInt_natCast, List.length_append, List.length_append, add_ofNat_add,
          add_ofNat_add]
        rfl
      obtain ⟨tr', hruns, htext', hin'⟩ := ih (ArgVector.congr hrest hrestaway hframe (by omega)) hrestaway htext
        (by simp; omega) (by omega) fun a ha => (hstores a ha).elim (hin a) id
      have hall : done ++ str ++ [32] ++ spaced strs = done ++ spaced (str :: strs) := by
        rw [spaced_cons]
        simp
      rw [hall, ← hnext] at hruns
      refine ⟨tr', (settles_strlen hs hnul).bind hruns, hall ▸ htext', hin'⟩

theorem spaced_eq (h : strs ≠ []) : spaced strs = [32].intercalate strs ++ [32] := by
  induction strs with
  | nil => exact absurd rfl h
  | cons str strs ih =>
      cases strs with
      | nil => simp [spaced, List.intercalate]
      | cons str' strs =>
          rw [spaced_cons, ih (List.cons_ne_nil _ _), List.intercalate_cons_cons]
          simp

/-! ### The joined string -/

theorem settles_strjoin {bdMalloc : ℤ → Addr} (h : ArgVector m argv strs)
    (hlen : (spaced strs).length < 2 ^ 31) (hod : bdMalloc (spaced strs).length = od)
    (hfits : (spaced strs).length ≤ size) (haway : List.Forall₂ (Away od size) argv strs) :
    ∃ tr : Trace, Settles (fun fuel => strjoin bdMalloc fuel argv m)
        (od, tr.store (od + BitVec.ofNat 64 (spaced strs).length - 1) 0) ∧
      Spells tr.mem od (spaced strs) ∧ ∀ a ∈ tr.stores, (a - od).toNat < size := by
  have hnone : Spells (Trace.mk m []).mem od [] := trivial
  obtain ⟨tr, hruns, htext, hin⟩ :=
    settles_joinLoop h haway hnone (by simpa using hfits) hlen (by simp)
  have hcount := settles_joinLength h le_rfl (by omega)
  rw [zero_add] at hcount
  simp only [List.length_nil, BitVec.add_zero, List.nil_append] at hruns htext
  refine ⟨tr, hcount.bind ?_, htext, hin⟩
  rw [hod]
  exact hruns.bind (.pure _)

/-- `strjoin` joins the strings, and stays inside the block that the allocator
gives for the length, exactly if there is a string at all. -/
theorem strjoin_joins_iff (bdMalloc : ℤ → Addr) {k : ℕ} (h : ArgVector m argv strs)
    (hlen : (spaced strs).length < 2 ^ 31) (hk : firstk (spaced strs).length = some k)
    (haway : List.Forall₂ (Away (bdMalloc (spaced strs).length) (blkSize k)) argv strs) :
    (∃ tr, Settles (fun fuel => strjoin bdMalloc fuel argv m) (bdMalloc (spaced strs).length, tr) ∧
      Joins (bdMalloc (spaced strs).length) (blkSize k) strs tr) ↔ strs ≠ [] := by
  obtain ⟨k', hk', hroom, hleast⟩ := firstk_eq_some (n := (spaced strs).length) (by omega)
  obtain rfl : k' = k := Option.some.inj (hk'.symm.trans hk)
  obtain ⟨tr, hruns, htext, hin⟩ := settles_strjoin h hlen rfl hroom haway
  generalize bdMalloc (spaced strs).length = od at *
  constructor
  · rintro ⟨tr', hruns', hjoins⟩ rfl
    obtain rfl := (Prod.mk.inj (hruns'.unique hruns)).2
    obtain rfl : k' = 0 := by
      by_contra hpos
      exact absurd (hleast 0 (by omega)) (by simp [spaced])
    have hbefore := hjoins.inside _ List.mem_cons_self
    simp only [spaced, List.flatMap_nil, List.length_nil, BitVec.ofNat_eq_ofNat, BitVec.add_zero,
      sub_sub_cancel_left] at hbefore
    exact absurd hbefore (by decide)
  · intro hne
    rw [spaced_eq hne] at htext hroom hruns hlen
    rw [List.length_append, List.length_singleton] at hroom hruns hlen
    rw [add_ofNat_add, show BitVec.ofNat 64 1 = 1 from rfl, add_sub_cancel_right] at hruns
    refine ⟨_, hruns, htext.set (by rw [List.length_nil]; omega), fun a ha => ?_⟩
    rcases List.mem_cons.mp ha with rfl | ha
    · rw [add_sub_cancel_left, BitVec.toNat_ofNat, Nat.mod_eq_of_lt (by omega)]
      omega
    · exact hin a ha

/-- A string of one character and an empty one. -/
theorem strjoin_joins_two : ∃ tr,
    Settles (fun fuel => strjoin (fun _ => 0x3000) fuel [0x1000, 0x2000]
      fun x => if x = 0x1000 then 97 else 0) (0x3000, tr) ∧ Joins 0x3000 16 [[97], []] tr := by
  refine (strjoin_joins_iff (fun _ => 0x3000) (k := 0) (.cons ?_ (.cons ?_ .nil))
    (by decide) (by decide) (.cons ?_ (.cons ?_ .nil))).mpr (List.cons_ne_nil _ _)
  · exact ⟨by decide, rfl, rfl, trivial⟩
  · exact ⟨by decide, rfl, trivial⟩
  all_goals
    intro x hx
    rw [show blkSize 0 = 16 from rfl] at hx
    simp only [List.length_cons, List.length_nil]
    bv_omega

/-- Without a string the block stays as it was, and the byte before it is
overwritten. -/
theorem strjoin_none_writes_before : ArgVector (fun _ => 120) [] [] ∧ firstk 0 = some 0 ∧
    ∃ tr, Settles (fun fuel => strjoin (fun _ => 0x3000) fuel [] fun _ => 120) (0x3000, tr) ∧
      tr.stores = [0x2fff] ∧ tr.mem 0x3000 = 120 ∧ ¬ Joins 0x3000 16 [] tr := by
  refine ⟨.nil, by decide, _, .pure _, rfl, rfl, fun hjoins => ?_⟩
  exact absurd hjoins.text.1 (by decide)

end Xv6.Strings
