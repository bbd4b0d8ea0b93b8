import Xv6.Lib.Bytes
import Xv6.Vm.Image

/-!
Copies between the kernel and user memory: `copyin`, `copyout` and
`copyinstr`.

`userAddr` says for one byte where a user address leads: to a byte of a page
that is mapped with `PTE_V` and `PTE_U`. The loops of the source go page by
page, cut the range at page boundaries, and step in 64-bit arithmetic. They
are shown to do what a loop over single bytes does.

User pages may be mapped at several addresses. It is only asked that they
are not page-table pages of the same table, and not at physical address 0,
which `walkaddr` returns for an address that is not mapped.
-/

namespace Xv6.Vm

open Lib Prog

variable {C : Config} {s t u : Phys} {r va pa off n m k x y l len : ℕ} {bytes src : List ℕ}

/-! ### Where a user address leads -/

/-- The page and the offset in it of the byte at a user address. -/
def userAddr (C : Config) (s : Phys) (r va : ℕ) : Option (ℕ × ℕ) :=
  if va < maxva then
    (translate C s r va).bind fun p =>
      if p.2 &&& pteU = 0 then none else some (p.1, va % pgsize)
  else none

/-- The descent of `walk` without allocation. -/
def descend (mem : ℕ → ℕ → ℕ) (va : ℕ) : (level page : ℕ) → Option (ℕ × ℕ)
  | 0, page => some (page, px 0 va)
  | level + 1, page =>
      let pte := mem page (px (level + 1) va)
      if pte &&& pteV ≠ 0 then descend mem va level (pte2pa pte) else none

theorem walkFrom_eq (va l x : ℕ) (s : Phys) :
    walkFrom C va false l x s = .ok (descend s.mem va l x) s := by
  induction l generalizing x with
  | zero => rfl
  | succ l ih =>
      simp only [walkFrom, descend, bind, Prog.bind, load]
      split
      · exact ih _
      · rfl

theorem walk_eq (hva : va < maxva) : walk C r va false s = .ok (descend s.mem va 2 r) s := by
  rw [walk, if_neg (Nat.not_le.mpr hva), walkFrom_eq]

theorem translate_eq_descend (hva : va < maxva) : translate C s r va =
    (descend s.mem va 2 r).bind fun p => if s.mem p.1 p.2 &&& pteV = 0 then none
      else some (pte2pa (s.mem p.1 p.2), pteFlags (s.mem p.1 p.2)) := by
  rw [translate, walk_eq hva]
  cases descend s.mem va 2 r <;> rfl

/-- `PTE_U` is one of the flags of an entry. -/
theorem pteFlags_and_pteU (w : ℕ) : pteFlags w &&& pteU = w &&& pteU := by
  rw [pteFlags, Nat.and_assoc]
  rfl

/-- `walkaddr` finds the page of a user address. -/
theorem walkaddr_eq (r va : ℕ) (s : Phys) :
    walkaddr C r va s = .ok ((userAddr C s r va).map Prod.fst) s := by
  rw [walkaddr, userAddr]
  by_cases hva : va < maxva
  · rw [if_neg (Nat.not_le.mpr hva), if_pos hva, translate_eq_descend hva]
    simp only [bind, Prog.bind, walk_eq hva]
    cases descend s.mem va 2 r with
    | none => rfl
    | some p =>
        simp only [load, Prog.bind, Option.bind_some]
        split_ifs with hvalid huser
        · rfl
        · rw [Option.bind_some, if_pos ((pteFlags_and_pteU _).trans huser)]
          rfl
        · rw [Option.bind_some, if_neg fun h => huser ((pteFlags_and_pteU _).symm.trans h)]
          rfl
  · rw [if_pos (Nat.not_lt.mp hva), if_neg hva]
    rfl

theorem px_congr {va' : ℕ} (h : va / pgsize = va' / pgsize) (l : ℕ) : px l va = px l va' := by
  have hpow : 2 ^ (12 + 9 * l) = pgsize * 2 ^ (9 * l) := by rw [Nat.pow_add]
  rw [px_eq, px_eq, hpow, ← Nat.div_div_eq_div_mul, ← Nat.div_div_eq_div_mul, h]

theorem descend_congr {va' : ℕ} (h : va / pgsize = va' / pgsize) (mem : ℕ → ℕ → ℕ) (l x : ℕ) :
    descend mem va l x = descend mem va' l x := by
  induction l generalizing x with
  | zero => simp only [descend, px_congr h]
  | succ l ih => simp only [descend, px_congr h, ih]

/-- All bytes of a page are in the same physical page. -/
theorem userAddr_eq {va' : ℕ} (h : va / pgsize = va' / pgsize) :
    userAddr C s r va' = (userAddr C s r va).map fun a => (a.1, va' % pgsize) := by
  have hiff : va' < maxva ↔ va < maxva := by
    simp only [pgsize, maxva] at h ⊢
    omega
  by_cases hva : va < maxva
  · rw [userAddr, userAddr, if_pos hva, if_pos (hiff.mpr hva), translate_eq_descend hva,
      translate_eq_descend (hiff.mpr hva), descend_congr h]
    cases descend s.mem va' 2 r with
    | none => rfl
    | some p =>
        simp only [Option.bind_some]
        split_ifs
        · rfl
        · simp only [Option.bind_some]
          split_ifs <;> rfl
  · rw [userAddr, userAddr, if_neg hva, if_neg fun h => hva (hiff.mp h)]
    rfl

theorem userAddr_some (h : userAddr C s r va = some (pa, off)) : va < maxva ∧ off = va % pgsize := by
  rw [userAddr] at h
  split_ifs at h with hva
  obtain ⟨p, -, hp⟩ := Option.bind_eq_some_iff.mp h
  split_ifs at hp
  cases hp
  exact ⟨hva, rfl⟩

/-- The next bytes, up to the end of the page. -/
theorem userAddr_add (h : userAddr C s r va = some (pa, off)) (hk : off + k < pgsize) :
    userAddr C s r (va + k) = some (pa, off + k) := by
  obtain ⟨-, rfl⟩ := userAddr_some h
  have hpage : va / pgsize = (va + k) / pgsize ∧ (va + k) % pgsize = va % pgsize + k := by
    simp only [pgsize] at hk ⊢
    omega
  rw [userAddr_eq hpage.1, h, Option.map_some, hpage.2]

theorem pgrounddown_eq (va : ℕ) : pgrounddown va = va - va % pgsize := by
  simp only [pgrounddown, pgsize]
  omega

/-- The page that a round of the loops looks at. -/
theorem userAddr_pgrounddown :
    (userAddr C s r (pgrounddown va)).map Prod.fst = (userAddr C s r va).map Prod.fst := by
  have hpage : va / pgsize = pgrounddown va / pgsize := by
    rw [pgrounddown_eq]
    simp only [pgsize]
    omega
  rw [userAddr_eq hpage, Option.map_map]
  rfl

/-- The offset of a round, and the address at which the next one starts. -/
structure Round (va off : ℕ) : Prop where
  lt : off < pgsize
  offset : va - pgrounddown va = off
  next : u64 (pgrounddown va + pgsize) = va + (pgsize - off)

theorem round_of_userAddr (h : userAddr C s r va = some (pa, off)) : Round va off := by
  obtain ⟨hva, rfl⟩ := userAddr_some h
  have hround := pgrounddown_eq va
  have hmod : va % pgsize < pgsize := Nat.mod_lt _ (by decide)
  have hle : va % pgsize ≤ va := Nat.mod_le _ _
  refine ⟨hmod, by omega, ?_⟩
  rw [hround]
  simp only [u64, pgsize, maxva] at hva hle hmod ⊢
  omega

/-! ### Reading -/

/-- The byte at a place in memory. -/
def Phys.byte (s : Phys) (a : ℕ × ℕ) : ℕ := byteAt (s.mem a.1) a.2

/-- Reads `len` bytes one by one, up to the first address that is not
accessible. -/
def userRead (C : Config) (s : Phys) (r : ℕ) : (len va : ℕ) → Bool × List ℕ
  | 0, _ => (true, [])
  | len + 1, va =>
      match userAddr C s r va with
      | none => (false, [])
      | some a =>
          let (ok, rest) := userRead C s r len (va + 1)
          (ok, s.byte a :: rest)

theorem readBytes_succ (page : ℕ → ℕ) (off n : ℕ) :
    readBytes page off (n + 1) = byteAt page off :: readBytes page (off + 1) n := by
  simp only [readBytes, List.range_succ_eq_map, List.map_cons, List.map_map, Nat.add_zero]
  congr 1
  apply List.map_congr_left
  intro k _
  simp only [Function.comp_apply, Nat.succ_eq_add_one]
  congr 1
  omega

/-- The bytes in one page. -/
theorem userRead_add (h : ∀ j < n, userAddr C s r (va + j) = some (pa, off + j)) :
    userRead C s r (n + m) va = ((userRead C s r m (va + n)).1,
      readBytes (s.mem pa) off n ++ (userRead C s r m (va + n)).2) := by
  induction n generalizing va off with
  | zero => simp [readBytes]
  | succ n ih =>
      have hrest : ∀ j < n, userAddr C s r (va + 1 + j) = some (pa, off + 1 + j) := by
        intro j hj
        have := h (j + 1) (by omega)
        rwa [Nat.add_comm j 1, ← Nat.add_assoc, ← Nat.add_assoc] at this
      have hfirst := h 0 (Nat.succ_pos n)
      rw [Nat.add_zero, Nat.add_zero] at hfirst
      rw [show n + 1 + m = n + m + 1 by omega, userRead, hfirst, ih hrest, readBytes_succ,
        show va + 1 + n = va + (n + 1) by omega]
      rfl

/-- The loop over pages reads what the loop over bytes reads. -/
theorem copyinLoop_eq {fuel : ℕ} (hfuel : len ≤ fuel) :
    copyinLoop C r fuel va len s = .ok (userRead C s r len va) s := by
  induction fuel generalizing va len with
  | zero =>
      obtain rfl : len = 0 := by omega
      rfl
  | succ fuel ih =>
      cases len with
      | zero => rfl
      | succ len =>
          have hwalk := walkaddr_eq (C := C) r (pgrounddown va) s
          rw [userAddr_pgrounddown] at hwalk
          simp only [copyinLoop, bind, Prog.bind, hwalk]
          cases haddr : userAddr C s r va with
          | none => simp only [Option.map_none, userRead, haddr, pure, Prog.pure]
          | some a =>
              obtain ⟨pa, off⟩ := a
              obtain ⟨hoff, hsub, hnext⟩ := round_of_userAddr haddr
              simp only [Option.map_some, Prog.bind, Prog.get, hsub, hnext]
              set n := min (pgsize - off) (len + 1) with hn
              have hchunk : ∀ j < n, userAddr C s r (va + j) = some (pa, off + j) :=
                fun j hj => userAddr_add haddr (by omega)
              have hsplit := userRead_add (m := len + 1 - n) hchunk
              rw [show n + (len + 1 - n) = len + 1 by omega] at hsplit
              rw [hsplit]
              rcases Nat.lt_or_ge (pgsize - off) (len + 1) with hmore | hlast
              · have hn' : n = pgsize - off := by omega
                rw [ih (by omega), ← hn']
                rfl
              · have hn' : n = len + 1 := by omega
                rw [hn', Nat.sub_self]
                cases fuel <;> rfl

theorem userRead_ok : (userRead C s r len va).1 = true ↔
    ∀ k < len, userAddr C s r (va + k) ≠ none := by
  induction len generalizing va with
  | zero => simp [userRead]
  | succ len ih =>
      rw [Nat.forall_lt_succ_left, userRead, Nat.add_zero]
      cases haddr : userAddr C s r va with
      | none => simp
      | some a =>
          simp only [ih, ne_eq, reduceCtorEq, not_false_eq_true, true_and]
          refine forall₂_congr fun k _ => ?_
          rw [show va + 1 + k = va + (k + 1) by omega]

/-- Every byte read is one of an accessible address. -/
theorem userRead_getElem {b : ℕ} (h : (userRead C s r len va).2[k]? = some b) :
    k < len ∧ ∃ a, userAddr C s r (va + k) = some a ∧ b = s.byte a := by
  induction len generalizing va k with
  | zero => simp [userRead] at h
  | succ len ih =>
      rw [userRead] at h
      cases haddr : userAddr C s r va with
      | none => simp [haddr] at h
      | some a =>
          rw [haddr] at h
          cases k with
          | zero => exact ⟨Nat.succ_pos len, a, haddr, by simpa using h.symm⟩
          | succ k =>
              have htail : (userRead C s r len (va + 1)).2[k]? = some b := by simpa using h
              obtain ⟨hk, a', ha', hb⟩ := ih htail
              rw [show va + 1 + k = va + (k + 1) by omega] at ha'
              exact ⟨by omega, a', ha', hb⟩

theorem userRead_length_le : (userRead C s r len va).2.length ≤ len := by
  by_contra hlong
  have hlt : len < (userRead C s r len va).2.length := by omega
  have := (userRead_getElem (List.getElem?_eq_getElem hlt)).1
  omega

theorem userRead_length (h : (userRead C s r len va).1 = true) :
    (userRead C s r len va).2.length = len := by
  induction len generalizing va with
  | zero => rfl
  | succ len ih =>
      rw [userRead] at h ⊢
      cases haddr : userAddr C s r va with
      | none => simp [haddr] at h
      | some a =>
          rw [haddr] at h
          simp only [List.length_cons]
          rw [ih h]

/-! ### Reading a string -/

/-- Reads bytes one by one up to the first 0. -/
def userString (C : Config) (s : Phys) (r : ℕ) : (max va : ℕ) → Bool × List ℕ
  | 0, _ => (false, [])
  | max + 1, va =>
      match userAddr C s r va with
      | none => (false, [])
      | some a =>
          if s.byte a = 0 then (true, [0])
          else
            let (gotNull, rest) := userString C s r max (va + 1)
            (gotNull, s.byte a :: rest)

theorem userString_add (h : ∀ j < n, userAddr C s r (va + j) = some (pa, off + j)) :
    userString C s r (n + m) va =
      if (copyString (s.mem pa) n off).1 then copyString (s.mem pa) n off
      else ((userString C s r m (va + n)).1,
        (copyString (s.mem pa) n off).2 ++ (userString C s r m (va + n)).2) := by
  induction n generalizing va off with
  | zero => simp [copyString]
  | succ n ih =>
      have hrest : ∀ j < n, userAddr C s r (va + 1 + j) = some (pa, off + 1 + j) := by
        intro j hj
        have := h (j + 1) (by omega)
        rwa [Nat.add_comm j 1, ← Nat.add_assoc, ← Nat.add_assoc] at this
      have hfirst := h 0 (Nat.succ_pos n)
      rw [Nat.add_zero, Nat.add_zero] at hfirst
      rw [show n + 1 + m = n + m + 1 by omega, userString, hfirst, ih hrest, copyString,
        show va + 1 + n = va + (n + 1) by omega]
      by_cases hzero : byteAt (s.mem pa) off = 0
      · simp [Phys.byte, hzero]
      · obtain ⟨gotNull, bytes⟩ := copyString (s.mem pa) n (off + 1)
        cases gotNull <;> simp [Phys.byte, hzero]

variable {max : ℕ}

theorem copyinstrLoop_eq {fuel : ℕ} (hfuel : max ≤ fuel) :
    copyinstrLoop C r fuel va max s = .ok (userString C s r max va) s := by
  induction fuel generalizing va max with
  | zero =>
      obtain rfl : max = 0 := by omega
      rfl
  | succ fuel ih =>
      cases max with
      | zero => rfl
      | succ max =>
          have hwalk := walkaddr_eq (C := C) r (pgrounddown va) s
          rw [userAddr_pgrounddown] at hwalk
          simp only [copyinstrLoop, bind, Prog.bind, hwalk]
          cases haddr : userAddr C s r va with
          | none => simp only [Option.map_none, userString, haddr, pure, Prog.pure]
          | some a =>
              obtain ⟨pa, off⟩ := a
              obtain ⟨hoff, hsub, hnext⟩ := round_of_userAddr haddr
              simp only [Option.map_some, Prog.bind, Prog.get, hsub, hnext]
              set n := min (pgsize - off) (max + 1) with hn
              have hchunk : ∀ j < n, userAddr C s r (va + j) = some (pa, off + j) :=
                fun j hj => userAddr_add haddr (by omega)
              have hsplit := userString_add (m := max + 1 - n) hchunk
              rw [show n + (max + 1 - n) = max + 1 by omega] at hsplit
              rw [hsplit]
              obtain ⟨gotNull, bytes⟩ := copyString (s.mem pa) n off
              cases gotNull with
              | true => rfl
              | false =>
                  rcases Nat.lt_or_ge (pgsize - off) (max + 1) with hmore | hlast
                  · have hn' : n = pgsize - off := by omega
                    simp only [Prog.bind]
                    rw [ih (by omega), ← hn']
                    rfl
                  · have hn' : n = max + 1 := by omega
                    rw [hn', Nat.sub_self]
                    cases fuel <;> rfl

/-- The bytes before position `k` are accessible and not 0, and that at `k`
is accessible and 0. -/
def EndsAt (C : Config) (s : Phys) (r va k : ℕ) : Prop :=
  (∀ j < k, ∃ a, userAddr C s r (va + j) = some a ∧ s.byte a ≠ 0) ∧
    ∃ a, userAddr C s r (va + k) = some a ∧ s.byte a = 0

theorem endsAt_succ : EndsAt C s r va (k + 1) ↔
    (∃ a, userAddr C s r va = some a ∧ s.byte a ≠ 0) ∧ EndsAt C s r (va + 1) k := by
  rw [EndsAt, EndsAt, Nat.forall_lt_succ_left, Nat.add_zero, and_assoc]
  refine and_congr_right fun _ => ?_
  rw [show va + 1 + k = va + (k + 1) by omega]
  refine and_congr_left fun _ => forall₂_congr fun j _ => ?_
  rw [show va + 1 + j = va + (j + 1) by omega]

/-- A string is found exactly if it ends within the bound, and it is read as
a whole. -/
theorem userString_ok : (userString C s r max va).1 = true ↔ ∃ k < max, EndsAt C s r va k := by
  induction max generalizing va with
  | zero => simp [userString]
  | succ max ih =>
      rw [Nat.exists_lt_succ_left, userString]
      simp only [endsAt_succ]
      cases haddr : userAddr C s r va with
      | none => simp [EndsAt, haddr]
      | some a =>
          by_cases hzero : s.byte a = 0
          · simp [EndsAt, haddr, hzero]
          · simp [EndsAt, haddr, hzero, ih]

theorem userString_length (hk : k < max) (h : EndsAt C s r va k) :
    (userString C s r max va).2.length = k + 1 := by
  induction k generalizing va max with
  | zero =>
      obtain ⟨a, haddr, hzero⟩ := h.2
      obtain ⟨max, rfl⟩ := Nat.exists_eq_succ_of_ne_zero (by omega : max ≠ 0)
      rw [Nat.add_zero] at haddr
      simp [userString, haddr, hzero]
  | succ k ih =>
      obtain ⟨⟨a, haddr, hne⟩, hrest⟩ := endsAt_succ.mp h
      obtain ⟨max, rfl⟩ := Nat.exists_eq_succ_of_ne_zero (by omega : max ≠ 0)
      have hlen := ih (show k < max by omega) hrest
      simp [userString, haddr, hne, hlen]

theorem userString_getElem {b : ℕ} (h : (userString C s r max va).2[k]? = some b) :
    k < max ∧ ∃ a, userAddr C s r (va + k) = some a ∧ b = s.byte a := by
  induction max generalizing va k with
  | zero => simp [userString] at h
  | succ max ih =>
      rw [userString] at h
      cases haddr : userAddr C s r va with
      | none => simp [haddr] at h
      | some a =>
          rw [haddr] at h
          by_cases hzero : s.byte a = 0
          · simp only [hzero, if_true] at h
            obtain rfl : k = 0 := by
              by_contra hk
              obtain ⟨k, rfl⟩ := Nat.exists_eq_succ_of_ne_zero hk
              simp at h
            exact ⟨Nat.succ_pos max, a, haddr, by rw [hzero]; simpa using h.symm⟩
          · simp only [hzero, if_false] at h
            cases k with
            | zero => exact ⟨Nat.succ_pos max, a, haddr, by simpa using h.symm⟩
            | succ k =>
                have htail : (userString C s r max (va + 1)).2[k]? = some b := by simpa using h
                obtain ⟨hk, a', ha', hb⟩ := ih htail
                rw [show va + 1 + k = va + (k + 1) by omega] at ha'
                exact ⟨by omega, a', ha', hb⟩

/-! ### Writing -/

theorem byteAt_lt (page : ℕ → ℕ) (k : ℕ) : byteAt page k < 256 := Nat.mod_lt _ (by decide)

theorem byteAt_putBytes (hbytes : ∀ b ∈ bytes, b < 256) (page : ℕ → ℕ) (off k : ℕ) :
    byteAt (putBytes page off bytes) k =
      if off ≤ k ∧ k < off + bytes.length then bytes.getD (k - off) 0 else byteAt page k := by
  have hdigit : ∀ b < 8, (if off ≤ 8 * (k / 8) + b ∧ 8 * (k / 8) + b < off + bytes.length then
      bytes.getD (8 * (k / 8) + b - off) 0 else byteAt page (8 * (k / 8) + b)) < 256 := by
    intro b _
    split_ifs with hin
    · have hlt : 8 * (k / 8) + b - off < bytes.length := by omega
      rw [List.getD_eq_getElem _ _ hlt]
      exact hbytes _ (List.getElem_mem hlt)
    · exact byteAt_lt _ _
  have hsum := sum_digits hdigit (Nat.mod_lt k (by decide : 0 < 8))
  rw [Nat.div_add_mod] at hsum
  exact hsum

/-- The bytes `src` have been written at the addresses from `va` on: a byte
is there unless a later one has been written to the same place, and nothing
else is changed. -/
structure Wrote (C : Config) (r va : ℕ) (src : List ℕ) (s t : Phys) : Prop where
  accessible : ∀ k < src.length, userAddr C s r (va + k) ≠ none
  exact : ∀ k < src.length, ∀ a, userAddr C s r (va + k) = some a →
    (∀ j < src.length, k < j → userAddr C s r (va + j) ≠ some a) → t.byte a = src.getD k 0
  frame : ∀ a, t.byte a ≠ s.byte a → ∃ k < src.length, userAddr C s r (va + k) = some a
  page : ∀ x, (∀ k < src.length, ∀ off, userAddr C s r (va + k) ≠ some (x, off)) →
    t.mem x = s.mem x
  used : t.used = s.used
  supply : t.supply = s.supply

theorem Wrote.nil (C : Config) (r va : ℕ) (s : Phys) : Wrote C r va [] s s where
  accessible := nofun
  exact := nofun
  frame := fun _ h => absurd rfl h
  page := fun _ _ => rfl
  used := rfl
  supply := rfl

/-- Bytes in one page. -/
theorem Wrote.page_bytes (h : ∀ j < src.length, userAddr C s r (va + j) = some (pa, off + j))
    (hpos : 0 < src.length) (hsrc : ∀ b ∈ src, b < 256) :
    Wrote C r va src s (s.setPage pa (putBytes (s.mem pa) off src)) := by
  have hself : ∀ k, (s.setPage pa (putBytes (s.mem pa) off src)).byte (pa, k) =
      if off ≤ k ∧ k < off + src.length then src.getD (k - off) 0 else s.byte (pa, k) := by
    intro k
    simp only [Phys.byte, Phys.setPage, Function.update_self]
    exact byteAt_putBytes hsrc _ _ _
  have hother : ∀ {x}, x ≠ pa → (s.setPage pa (putBytes (s.mem pa) off src)).mem x = s.mem x :=
    fun hx => Function.update_of_ne hx _ _
  refine ⟨fun k hk => ?_, fun k hk a ha _ => ?_, fun a hne => ?_, fun x hx => ?_, rfl, rfl⟩
  · rw [h k hk]
    simp
  · rw [h k hk] at ha
    cases ha
    rw [hself, if_pos (by omega), Nat.add_sub_cancel_left]
  · obtain ⟨x, k⟩ := a
    rcases eq_or_ne x pa with rfl | hx
    · rw [hself] at hne
      split_ifs at hne with hin
      · refine ⟨k - off, by omega, ?_⟩
        rw [h _ (by omega), Nat.add_sub_cancel' hin.1]
      · exact absurd rfl hne
    · simp only [Phys.byte, hother hx] at hne
      exact absurd rfl hne
  · refine hother fun hxpa => hx 0 hpos off ?_
    rw [h 0 hpos, hxpa]
    rfl

/-- First some bytes, then the others. -/
theorem Wrote.append {src' : List ℕ} (h : Wrote C r va src s t)
    (h' : Wrote C r (va + src.length) src' t u)
    (haddr : ∀ va, userAddr C t r va = userAddr C s r va) : Wrote C r va (src ++ src') s u := by
  have hsecond : ∀ k, src.length ≤ k → userAddr C s r (va + k) =
      userAddr C t r (va + src.length + (k - src.length)) := by
    intro k hk
    rw [haddr, Nat.add_assoc, Nat.add_sub_cancel' hk]
  have hlen : (src ++ src').length = src.length + src'.length := List.length_append
  refine ⟨fun k hk => ?_, fun k hk a ha hlast => ?_, fun a hne => ?_, fun x hx => ?_,
    h'.used.trans h.used, h'.supply.trans h.supply⟩
  · rcases Nat.lt_or_ge k src.length with hlt | hge
    · exact h.accessible k hlt
    · rw [hsecond k hge]
      exact h'.accessible _ (by omega)
  · rcases Nat.lt_or_ge k src.length with hlt | hge
    · -- not written again by the second part
      have hkeep : u.byte a = t.byte a := by
        by_contra hne
        obtain ⟨j, hj, hja⟩ := h'.frame a hne
        rw [haddr, Nat.add_assoc] at hja
        exact hlast (src.length + j) (by omega) (by omega) hja
      rw [hkeep, h.exact k hlt a ha fun j hj hkj => hlast j (by omega) hkj,
        List.getD_append _ _ _ _ hlt]
    · rw [hsecond k hge] at ha
      rw [List.getD_append_right _ _ _ _ hge]
      refine h'.exact _ (by omega) a ha fun j hj hkj => ?_
      rw [haddr, Nat.add_assoc]
      exact hlast _ (by omega) (by omega)
  · by_cases hmid : u.byte a = t.byte a
    · rw [hmid] at hne
      obtain ⟨k, hk, hka⟩ := h.frame a hne
      exact ⟨k, by omega, hka⟩
    · obtain ⟨k, hk, hka⟩ := h'.frame a hmid
      rw [haddr, Nat.add_assoc] at hka
      exact ⟨src.length + k, by omega, hka⟩
  · rw [h'.page x fun k hk off => ?_, h.page x fun k hk off => hx k (by omega) off]
    rw [haddr, Nat.add_assoc]
    exact hx (src.length + k) (by omega) off

/-! ### The table while user pages are written -/

/-- The pages that a user can access are not page-table pages of the table. -/
structure Separate (C : Config) (s : Phys) (r : ℕ) : Prop where
  separate : ∀ {va pa off}, userAddr C s r va = some (pa, off) →
    ∀ d ≤ 2, ∀ n, pageAt s r d n ≠ some pa

/-- In addition, they are not at physical address 0. -/
structure UserPages (C : Config) (s : Phys) (r : ℕ) : Prop extends Separate C s r where
  nonzero : ∀ {va pa off}, userAddr C s r va = some (pa, off) → pa ≠ 0

/-- The page-table pages are the same in both states. -/
def SameTable (r : ℕ) (s t : Phys) : Prop :=
  ∀ d ≤ 2, ∀ n x, pageAt s r d n = some x → t.mem x = s.mem x

theorem SameTable.pageAt {d : ℕ} (h : SameTable r s t) (hd : d ≤ 2) (n : ℕ) :
    pageAt t r d n = pageAt s r d n := by
  induction d generalizing n with
  | zero => rfl
  | succ d ih =>
      rw [Vm.pageAt, Vm.pageAt, ih (by omega)]
      cases hx : Vm.pageAt s r d (n / 512) with
      | none => rfl
      | some x => rw [Option.bind_some, Option.bind_some, h d (by omega) _ x hx]

/-- The descent for an address goes through page-table pages of the table. -/
theorem SameTable.descend (h : SameTable r s t) (hl : l ≤ 2)
    (hx : Vm.pageAt s r (2 - l) (va / 2 ^ (12 + 9 * (l + 1))) = some x) :
    descend t.mem va l x = descend s.mem va l x ∧
      ∀ p, descend s.mem va l x = some p → ∃ n, Vm.pageAt s r 2 n = some p.1 := by
  induction l generalizing x with
  | zero =>
      refine ⟨rfl, fun p hp => ⟨va / 2 ^ (12 + 9 * (0 + 1)), ?_⟩⟩
      cases hp
      exact hx
  | succ l ih =>
      have hmem := h _ (by omega) _ x hx
      rw [Vm.descend, Vm.descend, hmem]
      by_cases hvalid : s.mem x (px (l + 1) va) &&& pteV ≠ 0
      · rw [if_pos hvalid, if_pos hvalid]
        apply ih (by omega)
        have hdiv : va / 2 ^ (12 + 9 * (l + 1)) / 512 = va / 2 ^ (12 + 9 * (l + 1 + 1)) := by
          rw [Nat.div_div_eq_div_mul, show 512 = 2 ^ 9 from rfl, ← Nat.pow_add]
          congr 2
        rw [show 2 - l = 2 - (l + 1) + 1 by omega, Vm.pageAt, hdiv, hx, Option.bind_some, ← px_eq,
          if_pos hvalid]
      · rw [if_neg hvalid, if_neg hvalid]
        exact ⟨rfl, (by simp)⟩

theorem SameTable.userAddr (h : SameTable r s t) (va : ℕ) :
    userAddr C t r va = userAddr C s r va := by
  rw [Vm.userAddr, Vm.userAddr]
  by_cases hva : va < maxva
  · rw [if_pos hva, if_pos hva, translate_eq_descend hva, translate_eq_descend hva]
    have hroot : va / 2 ^ (12 + 9 * (2 + 1)) = 0 := Nat.div_eq_of_lt (hva.trans (by decide))
    have hpage : Vm.pageAt s r (2 - 2) (va / 2 ^ (12 + 9 * (2 + 1))) = some r := by
      rw [hroot]
      rfl
    obtain ⟨hsame, hlast⟩ := h.descend le_rfl hpage
    rw [hsame]
    cases hp : Vm.descend s.mem va 2 r with
    | none => rfl
    | some p =>
        obtain ⟨n, hn⟩ := hlast p hp
        rw [Option.bind_some, Option.bind_some, h 2 le_rfl n p.1 hn]
  · rw [if_neg hva, if_neg hva]

theorem Separate.congr (h : Separate C s r) (hsame : SameTable r s t) : Separate C t r where
  separate := by
    intro va pa off haddr d hd n
    rw [hsame.userAddr] at haddr
    rw [hsame.pageAt hd]
    exact h.separate haddr d hd n

theorem Separate.sameTable (h : Separate C s r) (haddr : userAddr C s r va = some (pa, off))
    (f : ℕ → ℕ) : SameTable r s (s.setPage pa f) := by
  intro d hd n x hx
  refine Function.update_of_ne ?_ _ _
  rintro rfl
  exact h.separate haddr d hd n hx

/-- The loop of `copyout` writes up to the first address that is not
accessible. -/
theorem copyoutLoop_spec {fuel : ℕ} (h : Separate C s r) (hsrc : ∀ b ∈ src, b < 256)
    (hfuel : src.length ≤ fuel) :
    ∃ m t, m ≤ src.length ∧ copyoutLoop C r fuel va src s = .ok (decide (m = src.length)) t ∧
      Wrote C r va (src.take m) s t ∧ (m < src.length → userAddr C s r (va + m) = none) := by
  induction fuel generalizing va src s with
  | zero =>
      obtain rfl : src = [] := List.length_eq_zero_iff.mp (by omega)
      exact ⟨0, s, le_rfl, rfl, .nil C r va s, nofun⟩
  | succ fuel ih =>
      cases src with
      | nil => exact ⟨0, s, le_rfl, rfl, .nil C r va s, nofun⟩
      | cons b rest =>
          have hwalk := walkaddr_eq (C := C) r (pgrounddown va) s
          rw [userAddr_pgrounddown] at hwalk
          rw [copyoutLoop]
          case x_3 => exact List.cons_ne_nil b rest
          simp only [bind, Prog.bind, hwalk]
          cases haddr : userAddr C s r va with
          | none =>
              exact ⟨0, s, Nat.zero_le _, rfl, .nil C r va s, fun _ => haddr⟩
          | some a =>
              obtain ⟨pa, off⟩ := a
              obtain ⟨hoff, hsub, hnext⟩ := round_of_userAddr haddr
              simp only [Option.map_some, Prog.bind, writeBytes, Prog.get, bind, setPage,
                Prog.modify, hsub, hnext]
              generalize hlist : b :: rest = src at *
              set n := pgsize - off with hn
              set s₁ := s.setPage pa (putBytes (s.mem pa) off (src.take n))
              have hpos : 0 < src.length := by
                rw [← hlist]
                exact Nat.succ_pos _
              have htake : (src.take n).length = min n src.length := List.length_take
              have hsame : SameTable r s s₁ := h.sameTable haddr _
              have hfirst : Wrote C r va (src.take n) s s₁ :=
                .page_bytes (fun j hj => userAddr_add haddr (by omega)) (by omega)
                  fun b hb => hsrc b (List.mem_of_mem_take hb)
              rcases Nat.lt_or_ge n src.length with hmore | hlast
              · have hdrop : (src.drop n).length = src.length - n := List.length_drop
                have hrest : ∀ b ∈ src.drop n, b < 256 :=
                  fun b hb => hsrc b (List.mem_of_mem_drop hb)
                obtain ⟨m, t, hm, hrun, hwrote, hstop⟩ :=
                  @ih s₁ (va + n) (src.drop n) (h.congr hsame) hrest (by omega)
                rw [hdrop] at hm hrun hstop
                have hsrc' : src.take n ++ (src.drop n).take m = src.take (n + m) :=
                  (List.take_add ..).symm
                refine ⟨n + m, t, by omega, ?_, ?_, fun hlt => ?_⟩
                · rw [hrun, decide_eq_decide.mpr (by omega : m = src.length - n ↔ n + m = src.length)]
                · rw [← hsrc']
                  refine hfirst.append ?_ hsame.userAddr
                  rw [htake, Nat.min_eq_left hmore.le]
                  exact hwrote
                · rw [← Nat.add_assoc, ← hsame.userAddr]
                  exact hstop (by omega)
              · have hnil : src.drop n = [] := List.drop_eq_nil_of_le hlast
                refine ⟨src.length, s₁, le_rfl, ?_, ?_, fun hlt => absurd hlt (lt_irrefl _)⟩
                · rw [hnil, decide_eq_true rfl]
                  cases fuel <;> rfl
                · rw [List.take_length]
                  rwa [List.take_of_length_le hlast] at hfirst

/-! ### The three functions -/

/-- `copyin` succeeds exactly if all bytes are accessible. What it stores are
the bytes of accessible addresses, in order, and nothing else changes. -/
def CopiesIn (C : Config) (s : Phys) (r va len : ℕ) : Prop :=
  ∃ ok bytes, copyin C r va len s = .ok (ok, bytes) s ∧
    (ok = true ↔ ∀ k < len, userAddr C s r (va + k) ≠ none) ∧
    (ok = true → bytes.length = len) ∧ bytes.length ≤ len ∧
    ∀ k b, bytes[k]? = some b → ∃ a, userAddr C s r (va + k) = some a ∧ b = s.byte a

/-- `copyout` succeeds exactly if all bytes are accessible, and has then
written all of them; otherwise it has written some of the first. -/
def CopiesOut (C : Config) (s : Phys) (r va : ℕ) (src : List ℕ) : Prop :=
  ∃ ok t, copyout C r va src s = .ok ok t ∧
    (ok = true ↔ ∀ k < src.length, userAddr C s r (va + k) ≠ none) ∧
    (ok = true → Wrote C r va src s t) ∧ ∃ m, Wrote C r va (src.take m) s t

/-- `copyinstr` succeeds exactly if a 0 follows within the bound and all bytes
up to it are accessible, and has then stored the bytes up to the first 0. -/
def CopiesString (C : Config) (s : Phys) (r va max : ℕ) : Prop :=
  ∃ ok bytes, copyinstr C r va max s = .ok (ok, bytes) s ∧
    (ok = true ↔ ∃ k < max, (∀ j ≤ k, userAddr C s r (va + j) ≠ none) ∧
      ∃ a, userAddr C s r (va + k) = some a ∧ s.byte a = 0) ∧
    (ok = true → ∃ k < max, EndsAt C s r va k ∧ bytes.length = k + 1) ∧ bytes.length ≤ max ∧
    ∀ k b, bytes[k]? = some b → ∃ a, userAddr C s r (va + k) = some a ∧ b = s.byte a

theorem copiesIn (C : Config) (s : Phys) (r va len : ℕ) : CopiesIn C s r va len :=
  ⟨(userRead C s r len va).1, (userRead C s r len va).2, copyinLoop_eq le_rfl, userRead_ok,
    userRead_length, userRead_length_le, fun _ _ hb => (userRead_getElem hb).2⟩

theorem copiesOut (h : Separate C s r) (va : ℕ) (hsrc : ∀ b ∈ src, b < 256) :
    CopiesOut C s r va src := by
  obtain ⟨m, t, hm, hrun, hwrote, hstop⟩ :=
    @copyoutLoop_spec C s r va src src.length h hsrc le_rfl
  have hlen : (src.take m).length = m := by
    rw [List.length_take]
    omega
  refine ⟨decide (m = src.length), t, hrun, ?_, fun hok => ?_, m, hwrote⟩
  · rw [decide_eq_true_iff]
    constructor
    · intro hall k hk
      exact hwrote.accessible k (by omega)
    · intro hall
      by_contra hne
      have hlt : m < src.length := by omega
      exact hall m hlt (hstop hlt)
  · rwa [of_decide_eq_true hok, List.take_length] at hwrote

/-- The first 0 ends the string. -/
theorem exists_endsAt : (∃ k < max, EndsAt C s r va k) ↔
    ∃ k < max, (∀ j ≤ k, userAddr C s r (va + j) ≠ none) ∧
      ∃ a, userAddr C s r (va + k) = some a ∧ s.byte a = 0 := by
  constructor
  · rintro ⟨k, hk, hbefore, a, ha, hzero⟩
    refine ⟨k, hk, fun j hj => ?_, a, ha, hzero⟩
    rcases Nat.lt_or_eq_of_le hj with hlt | rfl
    · obtain ⟨a', ha', -⟩ := hbefore j hlt
      rw [ha']
      exact nofun
    · rw [ha]
      exact nofun
  · rintro ⟨k, hk, hall, hnul⟩
    -- induction on the position: an earlier 0, if there is one, is taken instead
    induction k using Nat.strong_induction_on with
    | _ k ih =>
        by_cases hearlier : ∃ j < k, ∃ a, userAddr C s r (va + j) = some a ∧ s.byte a = 0
        · obtain ⟨j, hj, hjnul⟩ := hearlier
          exact ih j hj (hj.trans hk) (fun i hi => hall i (hi.trans hj.le)) hjnul
        · refine ⟨k, hk, fun j hj => ?_, hnul⟩
          obtain ⟨a, ha⟩ := Option.ne_none_iff_exists'.mp (hall j hj.le)
          exact ⟨a, ha, fun hzero => hearlier ⟨j, hj, a, ha, hzero⟩⟩

theorem copiesString (C : Config) (s : Phys) (r va max : ℕ) : CopiesString C s r va max := by
  refine ⟨(userString C s r max va).1, (userString C s r max va).2, copyinstrLoop_eq le_rfl, ?_,
    fun hok => ?_, ?_, fun _ _ hb => (userString_getElem hb).2⟩
  · rw [userString_ok, exists_endsAt]
  · obtain ⟨k, hk, hends⟩ := userString_ok.mp hok
    exact ⟨k, hk, hends, userString_length hk hends⟩
  · by_contra hlong
    have hlt : max < (userString C s r max va).2.length := by omega
    have := (userString_getElem (List.getElem?_eq_getElem hlt)).1
    omega

/-- Copies from and to user memory are exact, and touch accessible bytes
only. -/
theorem userCopies_exact (h : UserPages C s r) (va : ℕ) :
    (∀ len, CopiesIn C s r va len) ∧
      (∀ src : List ℕ, (∀ b ∈ src, b < 256) → CopiesOut C s r va src) ∧
      ∀ max, CopiesString C s r va max :=
  ⟨copiesIn C s r va, fun _ hsrc => copiesOut h.toSeparate va hsrc, copiesString C s r va⟩

/-- In the table of a process, the accessible pages are user pages. -/
theorem Built.frame_of_userAddr {sz : ℕ} {A A' : View} (h : Built C r sz A A' s t)
    (haddr : userAddr C t r va = some (pa, off)) : A'.owner pa = some (.frame r (va / pgsize)) := by
  obtain ⟨hva, -⟩ := userAddr_some haddr
  rw [userAddr, if_pos hva, h.rep.toTree.translate_eq h.root hva] at haddr
  obtain ⟨p, hp, hflags⟩ := Option.bind_eq_some_iff.mp haddr
  obtain ⟨w, hw, rfl⟩ := Option.map_eq_some_iff.mp hp
  split_ifs at hflags with huser
  cases hflags
  refine h.rep.frame_iff.mpr ⟨?_, w, hw, rfl⟩
  by_contra hkernel
  exact huser ((pteFlags_and_pteU w).trans (h.kernel (Nat.not_lt.mp hkernel) hw))

theorem Built.separate {sz : ℕ} {A A' : View} (h : Built C r sz A A' s t) : Separate C t r where
  separate := by
    intro va pa off haddr d hd n hpage
    have htable := (h.rep.toTree.pageAt_iff h.root hd).mp hpage
    rw [h.frame_of_userAddr haddr] at htable
    cases htable

theorem Built.userPages {sz : ℕ} {A A' : View} (h : Built C r sz A A' s t) (h0 : 0 ∉ C.pool) :
    UserPages C t r where
  toSeparate := h.separate
  nonzero := by
    rintro va pa off haddr rfl
    refine h0 (h.rep.used_pool ?_)
    rw [h.rep.used_iff, h.frame_of_userAddr haddr]
    rfl

theorem userCopies_one_page : ∃ t,
    image sixteenPages 4096 [.uvmalloc 5000] oneTrapframe = .ok (8192, 5000) t ∧
      (∀ len, CopiesIn sixteenPages t 8192 4000 len) ∧
      (∀ src : List ℕ, (∀ b ∈ src, b < 256) → CopiesOut sixteenPages t 8192 4000 src) ∧
      ∀ max, CopiesString sixteenPages t 8192 4000 max := by
  have hrun : ((image sixteenPages 4096 [.uvmalloc 5000] oneTrapframe).toOption.map
      Prod.fst) = some (8192, 5000) := by
    decide +kernel
  obtain ⟨⟨p, t⟩, hend, rfl⟩ := Option.map_eq_some_iff.mp hrun
  have himage := Outcome.eq_ok_of_toOption hend
  obtain ⟨A, hbuilt⟩ := of_wpf (wpf_image (by decide) (by decide)) himage
  exact ⟨t, himage, userCopies_exact (hbuilt.userPages (by decide)) 4000⟩

end Xv6.Vm
