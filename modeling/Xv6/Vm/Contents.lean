import Xv6.Vm.Load
import Xv6.Vm.UserCopy

/-!
User memory as a function of the address.

`userMem` is the byte that a user program finds at an address, if it can
access it. For each function that makes an image there is a rule that says
how this function changes: `uvmalloc` adds zeros, `uvmclear` takes a page
away, `loadseg` and `copyout` write bytes.
-/

namespace Xv6.Vm

open Lib Prog

variable {C : Config} {s t u : Phys} {A A' A'' : View}
  {r sz va pa off n m k v w i x newsz size : ℕ} {src file : List ℕ}

def userMem (C : Config) (s : Phys) (r va : ℕ) : Option ℕ := (userAddr C s r va).map s.byte

/-- Memory with `src` written at the addresses from `va` on. -/
def put (f : ℕ → Option ℕ) (va : ℕ) (src : List ℕ) (va' : ℕ) : Option ℕ :=
  if va ≤ va' ∧ va' < va + src.length then some (src.getD (va' - va) 0) else f va'

/-- Memory with zeros in the pages from the end of size `sz` to that of
`newsz`. -/
def grow (f : ℕ → Option ℕ) (sz newsz va : ℕ) : Option ℕ :=
  if pages sz * pgsize ≤ va ∧ va < pages newsz * pgsize then some 0 else f va

/-- Memory without the page `v`. -/
def clear (f : ℕ → Option ℕ) (v va : ℕ) : Option ℕ := if va / pgsize = v then none else f va

theorem Tree.userAddr_eq (h : Tree C s A) (hr : A.owner r = some (.table r 2 0)) (hva : va < maxva) :
    userAddr C s r va = (A.maps r (va / pgsize)).bind fun w =>
      if w &&& pteU = 0 then none else some (pte2pa w, va % pgsize) := by
  rw [userAddr, if_pos hva, h.translate_eq hr hva]
  cases A.maps r (va / pgsize) with
  | none => rfl
  | some w =>
      simp only [Option.map_some, Option.bind_some, reading]
      rw [pteFlags_and_pteU]

theorem Wrote.sameTable (h : Wrote C r va src s t) (hsep : Separate C s r) : SameTable r s t := by
  intro d hd n x hx
  exact h.page x fun k _ off haddr => hsep.separate haddr d hd n hx

theorem length_readi (h : off + n ≤ file.length) : ((file.drop off).take n).length = n := by
  rw [List.length_take, List.length_drop]
  omega

variable {ph : Proghdr} {done : List Proghdr}

/-- A segment starts at a page boundary, and its bytes are in the file. -/
structure Proghdr.Proper (file : List ℕ) (ph : Proghdr) : Prop where
  aligned : ph.vaddr % pgsize = 0
  filesz_le : ph.filesz ≤ ph.memsz
  inside : ph.off + ph.filesz ≤ file.length

/-- The first page boundary after the segment. -/
def Proghdr.top (ph : Proghdr) : ℕ := pages (ph.vaddr + ph.memsz) * pgsize

/-- Memory up to size `sz` holds the segments of `done`, and zeros elsewhere. -/
structure Loaded (file : List ℕ) (done : List Proghdr) (sz : ℕ) (f : ℕ → Option ℕ) : Prop where
  bytes : ∀ ph ∈ done, ∀ k < ph.filesz, f (ph.vaddr + k) = some (file.getD (ph.off + k) 0)
  zeros : ∀ va < pages sz * pgsize,
    (∀ ph ∈ done, ¬(ph.vaddr ≤ va ∧ va < ph.vaddr + ph.filesz)) → f va = some 0
  below : ∀ ph ∈ done, ph.vaddr + ph.filesz ≤ pages sz * pgsize
  top : ∀ ph ∈ done, ph.top ≤ pages sz * pgsize

theorem le_pages_mul (sz : ℕ) : sz ≤ pages sz * pgsize := by
  simp only [pages, pgsize]
  omega

theorem getD_take_drop (hk : k < n) :
    ((file.drop off).take n).getD k 0 = file.getD (off + k) 0 := by
  rw [List.getD_eq_getElem?_getD, List.getD_eq_getElem?_getD, List.getElem?_take_of_lt hk,
    List.getElem?_drop]

/-- One more segment, above the ones before. -/
theorem Loaded.cons {f : ℕ → Option ℕ} (h : Loaded file done sz f) (hproper : ph.Proper file)
    (habove : pages sz * pgsize ≤ ph.vaddr) : Loaded file (ph :: done) (ph.vaddr + ph.memsz)
      (put (grow f sz (ph.vaddr + ph.memsz)) ph.vaddr ((file.drop ph.off).take ph.filesz)) := by
  have hlen : ((file.drop ph.off).take ph.filesz).length = ph.filesz := length_readi hproper.inside
  have htop := le_pages_mul (ph.vaddr + ph.memsz)
  have hfile := hproper.filesz_le
  constructor
  · intro ph' hph' k hk
    rcases List.mem_cons.mp hph' with rfl | hold
    · rw [put, if_pos (by omega), Nat.add_sub_cancel_left, getD_take_drop hk]
    · have := h.below ph' hold
      rw [put, if_neg (by omega), grow, if_neg (by omega)]
      exact h.bytes ph' hold k hk
  · intro va hva hnone
    have hhead := hnone ph List.mem_cons_self
    rw [put, if_neg (by omega), grow]
    split_ifs with hin
    · rfl
    · have hlt : va < pages sz * pgsize := Nat.lt_of_not_le fun hge => hin ⟨hge, hva⟩
      exact h.zeros va hlt fun ph' hph' => hnone ph' (List.mem_cons_of_mem _ hph')
  · intro ph' hph'
    rcases List.mem_cons.mp hph' with rfl | hold
    · omega
    · exact (h.below ph' hold).trans (habove.trans ((Nat.le_add_right _ _).trans htop))
  · intro ph' hph'
    rcases List.mem_cons.mp hph' with rfl | hold
    · exact le_rfl
    · exact (h.top ph' hold).trans (habove.trans ((Nat.le_add_right _ _).trans htop))

theorem Loaded.congr {f g : ℕ → Option ℕ} (h : Loaded file done sz f)
    (hsame : ∀ va < pages sz * pgsize, g va = f va) : Loaded file done sz g where
  bytes := fun ph hph k hk => by
    have := h.below ph hph
    rw [hsame _ (by omega)]
    exact h.bytes ph hph k hk
  zeros := fun va hva hnone => by
    rw [hsame va hva]
    exact h.zeros va hva hnone
  below := h.below
  top := h.top

end Xv6.Vm
