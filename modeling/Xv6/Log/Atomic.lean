import Xv6.Log.Disk

/-!
Crash atomicity of the log.

A disk is *clean* when the header on it names no block, and *committed*
when the header and the log blocks hold a whole transaction, whatever the
home blocks of that transaction hold. `Holds d h` covers both: recovery
of `d` will give the home blocks `h`. No write of `recover_from_log`
changes what the disk holds in this sense, wherever it is cut off, and
the only write of `commit` that does is its first `write_head`.
-/

namespace Xv6.Log

open Lib DiskProg

variable {start size : ℕ}

/-! ### The header block -/

theorem loadHead_of_zero {b : Block} (h : b 0 = 0) : loadHead b = [] := by
  simp [loadHead, h]

theorem storeHead_nil {b : Block} (h : b 0 = 0) : storeHead [] b = b := by
  funext j
  cases j with
  | zero => simp [storeHead, h]
  | succ j => simp [storeHead]

/-- What `write_head` stores, `read_head` gives back. -/
theorem loadHead_storeHead {lh : List ℕ} (hn : lh.length < 2 ^ 31) (hb : ∀ b ∈ lh, b < 2 ^ 32)
    (b : Block) : loadHead (storeHead lh b) = lh := by
  have hlen : (BitVec.ofNat 32 lh.length).toInt.toNat = lh.length := by
    have hnat : (BitVec.ofNat 32 lh.length).toNat = lh.length := by
      rw [BitVec.toNat_ofNat, Nat.mod_eq_of_lt (by omega)]
    rw [BitVec.toInt_eq_toNat_of_lt (by omega), hnat, Int.toNat_natCast]
  unfold loadHead
  rw [show storeHead lh b 0 = BitVec.ofNat 32 lh.length from rfl, hlen]
  refine List.ext_getElem (by simp) fun i hi hi' => ?_
  have hlt : lh[i] < 2 ^ 32 := hb _ (List.getElem_mem hi')
  simp [storeHead, hi', Nat.mod_eq_of_lt (show lh[i] < 4294967296 from hlt)]

/-! ### What a disk holds -/

/-- The header names no block, and the home blocks are `h`. -/
structure Clean (start size : ℕ) (h d : Disk) : Prop where
  head : d start 0 = 0
  home : ∀ b, Home start size b → d b = h b

/-- The log holds `t`, and the home blocks outside it are those of `h`. -/
structure Committed (t : Transaction start size) (h d : Disk) : Prop where
  head : loadHead (d start) = t.lh
  log : ∀ i, i < t.lh.length → d (start + i + 1) = t.cache (t.lh.getD i 0)
  home : ∀ b, Home start size b → b ∉ t.lh → d b = h b

/-- Recovery of `d` gives the home blocks `h`. -/
def Holds (start size : ℕ) (h d : Disk) : Prop :=
  Clean start size h d ∨ ∃ (t : Transaction start size) (h' : Disk),
    Committed t h' d ∧ ∀ b, Home start size b → t.apply h' b = h b

theorem Home.ne_start (hs : 0 < size) {b : ℕ} (h : Home start size b) : b ≠ start := by
  rcases h with h | h <;> omega

theorem Home.ne_log {b i : ℕ} (h : Home start size b) (hi : i + 1 < size) : b ≠ start + i + 1 := by
  rcases h with h | h <;> omega

instance (b : ℕ) : Decidable (Home start size b) := inferInstanceAs (Decidable (_ ∨ _))

namespace Transaction

variable (t : Transaction start size)

include t in
theorem size_pos : 0 < size := by
  have := t.length_lt
  omega

theorem getD_mem {i : ℕ} (hi : i < t.lh.length) : t.lh.getD i 0 ∈ t.lh := by
  rw [List.getD_eq_getElem _ _ hi]
  exact List.getElem_mem hi

theorem getD_home {i : ℕ} (hi : i < t.lh.length) : Home start size (t.lh.getD i 0) :=
  t.home _ (t.getD_mem hi)

end Transaction

/-! ### The loops and the header writes -/

section

variable (t : Transaction start size) {h : Disk}

/-- Writing a home block of `t` keeps it committed. -/
theorem Committed.write_home {t : Transaction start size} {d : Disk} (hd : Committed t h d) {i : ℕ}
    (hi : i < t.lh.length) (v : Block) : Committed t h (Function.update d (t.lh.getD i 0) v) where
  head := by
    rw [Function.update_of_ne ((t.getD_home hi).ne_start t.size_pos).symm]
    exact hd.head
  log j hj := by
    have := t.length_lt
    rw [Function.update_of_ne ((t.getD_home hi).ne_log (by omega)).symm]
    exact hd.log j hj
  home b hb hbt := by
    rw [Function.update_of_ne fun e : b = t.lh.getD i 0 => hbt (e ▸ t.getD_mem hi)]
    exact hd.home b hb hbt

/-- `install_trans` of a committed transaction installs it. -/
theorem installTrans_triple : Triple (Committed t h) (installTrans start t.lh)
      (fun _ d => Committed t h d ∧ ∀ b ∈ t.lh, d b = t.cache b) (Committed t h) := by
  have hloop : Triple (fun d => Committed t h d ∧ ∀ j < 0, d (t.lh.getD j 0) = t.cache (t.lh.getD j 0))
      (installTrans start t.lh)
      (fun _ d => Committed t h d ∧
        ∀ j < t.lh.length, d (t.lh.getD j 0) = t.cache (t.lh.getD j 0)) (Committed t h) := by
    refine Triple.upTo
      (I := fun i d => Committed t h d ∧ ∀ j < i, d (t.lh.getD j 0) = t.cache (t.lh.getD j 0))
      (fun i d hd => hd.1) fun i hi => ?_
    refine .read fun lbuf => .read fun _ => .write (fun d hd => hd.1.1.1) ?_
      (.ret (fun d hd => hd.1) fun d hd => hd)
    rintro d ⟨⟨⟨hd, hdone⟩, rfl⟩, -⟩
    refine ⟨hd.write_home hi _, fun j hj => ?_⟩
    by_cases hji : t.lh.getD j 0 = t.lh.getD i 0
    · rw [hji, Function.update_self]
      exact hd.log i hi
    · rw [Function.update_of_ne hji]
      have hne : j ≠ i := fun e => hji (by rw [e])
      exact hdone j (by omega)
  refine hloop.mono (fun d hd => ⟨hd, nofun⟩) (fun _ d hd => ⟨hd.1, fun b hb => ?_⟩) fun d hd => hd
  obtain ⟨j, hj, rfl⟩ := List.getElem_of_mem hb
  rw [← List.getD_eq_getElem _ 0 hj]
  exact hd.2 j hj

/-- Clearing the header of an installed transaction. -/
theorem clearHead_triple :
    Triple (fun d => Committed t h d ∧ ∀ b ∈ t.lh, d b = t.cache b) (writeHead start [])
      (fun _ => Clean start size (t.apply h)) (Holds start size (t.apply h)) := by
  refine .read fun b => .write (M := Clean start size (t.apply h))
    (fun d hd => .inr ⟨t, h, hd.1.1, fun _ _ => rfl⟩) ?_
    (.ret (fun d hd => .inl hd) fun d hd => hd)
  rintro d ⟨⟨hd, hinst⟩, -⟩
  refine ⟨by simp [storeHead], fun c hc => ?_⟩
  rw [Function.update_of_ne (hc.ne_start t.size_pos)]
  by_cases hct : c ∈ t.lh
  · simp [Transaction.apply, hct, hinst c hct]
  · simp [Transaction.apply, hct, hd.home c hc hct]

/-- `install_trans` and the clearing `write_head` of a committed
transaction, in `commit` as in recovery. -/
theorem install_triple : Triple (Committed t h) ((installTrans start t.lh).seq (writeHead start []))
      (fun _ => Clean start size (t.apply h)) (Holds start size (t.apply h)) :=
  ((installTrans_triple t).mono (fun _ hd => hd) (fun _ _ hd => hd)
    fun _ hd => .inr ⟨t, h, hd, fun _ _ => rfl⟩).seq (clearHead_triple t)

/-- `write_log` touches the log area only. -/
theorem writeLog_triple : Triple (Clean start size h) (writeLog start t.lh t.cache)
      (fun _ d => Clean start size h d ∧
        ∀ i < t.lh.length, d (start + i + 1) = t.cache (t.lh.getD i 0)) (Clean start size h) := by
  have hlt := t.length_lt
  have hloop := Triple.upTo (C := Clean start size h) (n := t.lh.length)
    (f := fun tail => .read (start + tail + 1) fun _ =>
      .write (start + tail + 1) (t.cache (t.lh.getD tail 0)) (.ret ()))
    (I := fun i d => Clean start size h d ∧
      ∀ j < i, d (start + j + 1) = t.cache (t.lh.getD j 0)) (fun i d hd => hd.1) ?_
  · exact hloop.mono (fun d hd => ⟨hd, nofun⟩) (fun _ d hd => hd) fun d hd => hd
  · intro i hi
    refine .read fun _ => .write (fun d hd => hd.1.1) ?_ (.ret (fun d hd => hd.1) fun d hd => hd)
    rintro d ⟨⟨hd, hdone⟩, -⟩
    refine ⟨⟨?_, fun b hb => ?_⟩, fun j hj => ?_⟩
    · rw [Function.update_of_ne (by omega)]
      exact hd.head
    · rw [Function.update_of_ne (hb.ne_log (by omega))]
      exact hd.home b hb
    · by_cases hji : j = i
      · rw [hji, Function.update_self]
      · rw [Function.update_of_ne (by omega)]
        exact hdone j (by omega)

/-- The first `write_head` of `commit` turns a clean disk into a committed
one. -/
theorem writeHead_triple : Triple (fun d => Clean start size h d ∧
        ∀ i < t.lh.length, d (start + i + 1) = t.cache (t.lh.getD i 0))
      (writeHead start t.lh) (fun _ => Committed t h)
      (fun d => Clean start size h d ∨ Committed t h d) := by
  refine .read fun b => .write (M := Committed t h) (fun d hd => .inl hd.1.1) ?_
    (.ret (fun d hd => .inr hd) fun d hd => hd)
  rintro d ⟨⟨hd, hlog⟩, -⟩
  have hlen := t.length_le
  refine ⟨?_, fun i hi => ?_, fun c hc _ => ?_⟩
  · rw [Function.update_self]
    exact loadHead_storeHead (by simp only [logSize, maxOpBlocks] at hlen; omega) t.lt_two_pow b
  · rw [Function.update_of_ne (by omega)]
    exact hlog i hi
  · rw [Function.update_of_ne (hc.ne_start t.size_pos)]
    exact hd.home c hc

end

/-! ### Recovery -/

theorem Clean.congr {h h' d : Disk} (hd : Clean start size h d)
    (hh : ∀ b, Home start size b → h b = h' b) : Clean start size h' d :=
  ⟨hd.head, fun b hb => (hd.home b hb).trans (hh b hb)⟩

theorem Holds.congr {h h' d : Disk} (hd : Holds start size h d)
    (hh : ∀ b, Home start size b → h b = h' b) : Holds start size h' d := by
  rcases hd with hd | ⟨t, h₀, hd, ht⟩
  · exact .inl (hd.congr hh)
  · exact .inr ⟨t, h₀, hd, fun b hb => (ht b hb).trans (hh b hb)⟩

/-- On a clean disk recovery rewrites the header as it is. -/
theorem recover_clean {d : Disk} (hd : d start 0 = 0) (w : ℕ) :
    (recoverFromLog start).crash w d = d ∧ (recoverFromLog start).final d = d := by
  have hprog : ∀ f : List ℕ → DiskProg ℕ Block Unit,
      ((readHead start).bind f).crash w d = (f []).crash w d ∧
        ((readHead start).bind f).final d = (f []).final d := by
    intro f
    simp only [readHead, DiskProg.bind, DiskProg.crash, DiskProg.final, loadHead_of_zero hd]
    exact ⟨trivial, trivial⟩
  have hwrite : Function.update d start (storeHead [] (d start)) = d := by
    rw [storeHead_nil hd, Function.update_eq_self]
  rw [recoverFromLog, (hprog _).1, (hprog _).2]
  refine ⟨?_, hwrite⟩
  cases w with
  | zero => rfl
  | succ w => exact hwrite

/-- Recovery keeps what the disk holds and ends in a clean one. -/
theorem recover_triple (h : Disk) :
    Triple (Holds start size h) (recoverFromLog start) (fun _ => Clean start size h)
      (Holds start size h) := by
  rintro d (hd | ⟨t, h', hd, ht⟩)
  · refine ⟨fun w => ?_, ?_⟩
    · rw [(recover_clean hd.head w).1]
      exact .inl hd
    · rw [(recover_clean hd.head 0).2]
      exact hd
  · have htail := (install_triple t).mono (fun _ hd => hd) (fun _ _ hd => hd.congr ht)
      (fun _ hd => Holds.congr hd ht) d hd
    have hhead : loadHead (d start) = t.lh := hd.head
    have hcrash : ∀ w, (recoverFromLog start).crash w d =
        ((installTrans start t.lh).seq (writeHead start [])).crash w d := by
      intro w
      rw [← hhead]
      rfl
    have hfinal : (recoverFromLog start).final d =
        ((installTrans start t.lh).seq (writeHead start [])).final d := by
      rw [← hhead]
      rfl
    exact ⟨fun w => hcrash w ▸ htail.1 w, hfinal ▸ htail.2⟩

/-- Any number of crashed recoveries and one that completes. -/
theorem reboots_clean {h : Disk} (ws : List ℕ) {d : Disk} (hd : Holds start size h d) :
    Clean start size h (reboots start ws d) := by
  induction ws generalizing d with
  | nil => exact (recover_triple h d hd).2
  | cons w ws ih => exact ih ((recover_triple h d hd).1 w)

/-! ### Commit -/

section

variable (t : Transaction start size) {h d : Disk}

theorem writes_installTrans (lh : List ℕ) (d : Disk) :
    (installTrans start lh).writes d = lh.length :=
  writes_upTo (fun _ _ => rfl) _ _ _

theorem writes_writeLog (lh : List ℕ) (cache : ℕ → Block) (d : Disk) :
    (writeLog start lh cache).writes d = lh.length :=
  writes_upTo (fun _ _ => rfl) _ _ _

theorem writes_prog (ht : t.lh.length ≠ 0) (d : Disk) : t.prog.writes d = 2 * t.lh.length + 2 := by
  rw [Transaction.prog, commit, if_pos (Nat.pos_of_ne_zero ht)]
  simp only [seq, writes_bind, writes_writeLog, writes_installTrans]
  change t.lh.length + 1 + (t.lh.length + 1) = _
  omega

theorem prog_of_length_eq_zero (ht : t.lh.length = 0) : t.prog = .ret () := by
  rw [Transaction.prog, commit, if_neg (by omega)]

theorem apply_of_length_eq_zero (ht : t.lh.length = 0) : t.apply h = h := by
  funext b
  simp [Transaction.apply, List.length_eq_zero_iff.mp ht]

/-- The part of `commit` up to its first `write_head`. -/
theorem writes_first (d : Disk) :
    ((writeLog start t.lh t.cache).seq (writeHead start t.lh)).writes d = t.lh.length + 1 := by
  rw [seq, writes_bind, writes_writeLog]
  rfl

theorem first_committed (hd : Clean start size h d) :
    Committed t h (((writeLog start t.lh t.cache).seq (writeHead start t.lh)).final d) := by
  rw [seq, final_bind]
  exact (writeHead_triple t _ (writeLog_triple t d hd).2).2

/-- Before its first `write_head`, `commit` changes no home block. -/
theorem prog_crash_of_lt (ht : t.lh.length ≠ 0) (hd : Clean start size h d) {w : ℕ}
    (hw : w < t.lh.length + 1) : Clean start size h (t.prog.crash w d) := by
  rw [Transaction.prog, commit, if_pos (Nat.pos_of_ne_zero ht), seq,
    crash_bind_of_le (by rw [writes_first]; omega), seq,
    crash_bind_of_le (by rw [writes_writeLog]; omega)]
  exact (writeLog_triple t d hd).1 w

/-- From the first `write_head` on, the disk holds the transaction. -/
theorem prog_crash_of_ge (ht : t.lh.length ≠ 0) (hd : Clean start size h d) {w : ℕ}
    (hw : t.lh.length + 1 ≤ w) : Holds start size (t.apply h) (t.prog.crash w d) := by
  rw [Transaction.prog, commit, if_pos (Nat.pos_of_ne_zero ht), seq,
    crash_bind_of_ge (by rw [writes_first]; exact hw)]
  exact (install_triple t _ (first_committed t hd)).1 _

theorem prog_final (hd : Clean start size h d) : Clean start size (t.apply h) (t.prog.final d) := by
  by_cases ht : t.lh.length = 0
  · rw [prog_of_length_eq_zero t ht, apply_of_length_eq_zero t ht]
    exact hd
  · rw [Transaction.prog, commit, if_pos (Nat.pos_of_ne_zero ht), seq, final_bind]
    exact (install_triple t _ (first_committed t hd)).2

end

/-- Before any write, only transactions without a block are done. -/
theorem applyAll_committed_zero (ts : List (Transaction start size)) (h : Disk) :
    applyAll (ts.take (committed ts 0)) h = h := by
  induction ts with
  | nil => rfl
  | cons t ts ih =>
      by_cases ht : t.lh.length = 0
      · rw [committed, if_pos ht, List.take_succ_cons]
        change applyAll _ (t.apply h) = h
        rw [apply_of_length_eq_zero t ht]
        exact ih
      · rw [committed, if_neg ht, if_pos (by omega)]
        rfl

/-- A crash of a sequence of transactions after any number of writes. -/
theorem commitAll_crash (ts : List (Transaction start size)) {h d : Disk} (w : ℕ)
    (hd : Clean start size h d) :
    Holds start size (applyAll (ts.take (committed ts w)) h) ((commitAll ts).crash w d) := by
  induction ts generalizing h d w with
  | nil => exact .inl hd
  | cons t ts ih =>
      have hnext := prog_final t hd
      by_cases ht : t.lh.length = 0
      · have hw : t.prog.writes d = 0 := by
          rw [prog_of_length_eq_zero t ht]
          rfl
        rw [committed, if_pos ht, commitAll, seq, crash_bind_of_ge (by omega), hw]
        exact ih w hnext
      · rw [committed, if_neg ht]
        split
        · rename_i hlt
          rw [commitAll, seq, crash_bind_of_le (by rw [writes_prog t ht]; omega)]
          exact .inl (prog_crash_of_lt t ht hd hlt)
        · rename_i hge
          rcases Nat.le_total w (2 * t.lh.length + 2) with hw | hw
          · rw [commitAll, seq, crash_bind_of_le (by rw [writes_prog t ht]; exact hw),
              Nat.sub_eq_zero_of_le hw, List.take_succ_cons]
            change Holds start size (applyAll _ (t.apply h)) _
            rw [applyAll_committed_zero]
            exact prog_crash_of_ge t ht hd (by omega)
          · rw [commitAll, seq, crash_bind_of_ge (by rw [writes_prog t ht]; exact hw),
              writes_prog t ht]
            exact ih _ hnext

/-- The writes of the transactions before the `j`-th and those of
`write_log` in it, and one more. -/
def headAt (ts : List (Transaction start size)) (d : Disk) (j : ℕ) (hj : j < ts.length) : ℕ :=
  (commitAll (ts.take j)).writes d + ts[j].lh.length + 1

/-- The transactions counted by `committed` are those whose first
`write_head` is among the first `w` writes. -/
theorem lt_committed_iff (ts : List (Transaction start size)) (d : Disk) (w j : ℕ)
    (hj : j < ts.length) (hne : ts[j].lh ≠ []) : j < committed ts w ↔ headAt ts d j hj ≤ w := by
  induction ts generalizing d w j with
  | nil => cases hj
  | cons t ts ih =>
      cases j with
      | zero =>
          have ht : t.lh.length ≠ 0 := fun h => hne (List.length_eq_zero_iff.mp h)
          rw [committed, if_neg ht]
          change _ ↔ 0 + t.lh.length + 1 ≤ w
          split <;> omega
      | succ j =>
          have hj' : j < ts.length := Nat.lt_of_succ_lt_succ hj
          have hhead : headAt (t :: ts) d (j + 1) hj =
              t.prog.writes d + headAt ts (t.prog.final d) j hj' := by
            simp only [headAt, List.take_succ_cons, commitAll, seq, writes_bind,
              List.getElem_cons_succ]
            omega
          have hih := fun w => ih (t.prog.final d) w j hj' hne
          have hpos : 0 < headAt ts (t.prog.final d) j hj' := Nat.succ_pos _
          by_cases ht : t.lh.length = 0
          · have hw : t.prog.writes d = 0 := by
              rw [prog_of_length_eq_zero t ht]
              rfl
            rw [committed, if_pos ht, hhead, hw, Nat.zero_add, Nat.add_lt_add_iff_right]
            exact hih w
          · rw [committed, if_neg ht, hhead, writes_prog t ht]
            split
            · omega
            · rw [Nat.add_lt_add_iff_right, hih]
              omega

/-- **Crash atomicity.** From a disk with an empty header, commit any
transactions one after the other, let the power fail after any number `w`
of writes, and again after any number of writes of each of any number of
recoveries. The first recovery that completes leaves in the home blocks a
prefix of the transactions, which contains exactly those whose first
`write_head` had reached the disk, and running it again changes nothing. -/
theorem crash_atomic (ts : List (Transaction start size)) (d : Disk) (hd : d start 0 = 0)
    (w : ℕ) (ws : List ℕ) :
    ∃ k, (∀ j (hj : j < ts.length), ts[j].lh ≠ [] → (j < k ↔ headAt ts d j hj ≤ w)) ∧
      (∀ b, Home start size b →
        reboots start ws ((commitAll ts).crash w d) b = applyAll (ts.take k) d b) ∧
      (recoverFromLog start).final (reboots start ws ((commitAll ts).crash w d)) =
        reboots start ws ((commitAll ts).crash w d) := by
  have hclean := reboots_clean ws (commitAll_crash ts w ⟨hd, fun _ _ => rfl⟩)
  exact ⟨committed ts w, lt_committed_iff ts d w, hclean.home, (recover_clean hclean.head 0).2⟩

/-- Block 40 and 41 of a log in blocks 2 to 31. -/
def twoBlocks : Transaction 2 logSize where
  lh := [40, 41]
  cache := fun b _ => BitVec.ofNat 32 b
  home := by decide
  nodup := by decide
  length_lt := by decide
  length_le := by decide
  lt_two_pow := by decide

/-- The power fails after the third write of `commit`, its first
`write_head`, and in the first recovery after one write. -/
theorem crash_atomic_two_blocks :
    ∃ k, (0 < k ↔ headAt [twoBlocks] (fun _ _ => 0) 0 (by decide) ≤ 3) ∧
      reboots 2 [1] ((commitAll [twoBlocks]).crash 3 fun _ _ => 0) 41 =
        applyAll ([twoBlocks].take k) (fun _ _ => 0) 41 := by
  obtain ⟨k, hk, hhome, -⟩ := crash_atomic [twoBlocks] (fun _ _ => 0) rfl 3 [1]
  exact ⟨k, hk 0 (by decide) (by decide), hhome 41 (by decide)⟩

end Xv6.Log
