/-
The words of a line (`trim` and `split_first_word` of the shell) and the
strings that the kernel reads from a program's memory (`read_cstr` in
`syscall/mod.rs`).
-/
import ChodOs.Gui.Wm
import ChodOs.User.Dynlink
import ChodOs.Lib.ByteMem
import Mathlib.Data.List.TakeWhile

namespace ChodOs

/-! ## Words -/

/-- `trim`. -/
def trim (s : List UInt8) : List UInt8 :=
  let start := (s.findIdx? (· != space)).getD s.length
  let stop := ((s.reverse.findIdx? (· != space)).map fun i => s.length - i).getD 0
  if stop ≤ start then [] else (s.take stop).drop start

/-- `split_first_word`. -/
def splitFirstWord (s : List UInt8) : List UInt8 × List UInt8 :=
  match s.findIdx? (· == space) with
  | some i => (s.take i, trim (s.drop (i + 1)))
  | none => (s, [])

/-! ## Strings of C -/

/-- The loop of `read_cstr`, which still looks at so many bytes. -/
def cstrLen (mem : ByteMem) (a : Nat) : Nat → Nat
  | 0 => 0
  | room + 1 => if mem a = 0 then 0 else cstrLen mem (a + 1) room + 1

/-- `read_cstr`. -/
def readCstr (mem : ByteMem) (vaddr : Nat) : Option (List UInt8) :=
  if vaddr = 0 then none
  else
    let bytes := mem.read vaddr (cstrLen mem vaddr 4096)
    (fromUtf8 bytes).map fun _ => bytes

/-- An array of zeros that a string is copied into, but for its last byte. -/
def zeroed (size : Nat) (s : List UInt8) : List UInt8 :=
  s.take (size - 1) ++ List.replicate (size - min s.length (size - 1)) 0

/-! ## What is typed -/

/-- A text with spaces around it. -/
def Padded (line body : List UInt8) : Prop := ∃ pre post, line = pre ++ body ++ post ∧ (∀ b ∈ pre, b = space) ∧
  (∀ b ∈ post, b = space) ∧ body.head? ≠ some space ∧ body.getLast? ≠ some space

/-- A line of a word and what comes after it, with any spaces around and between. -/
def Words (line name args : List UInt8) : Prop := ∃ sep, Padded line (name ++ sep ++ args) ∧ name ≠ [] ∧ space ∉ name ∧
  (∀ b ∈ sep, b = space) ∧ args.head? ≠ some space ∧ (args ≠ [] → sep ≠ [])

variable {s line body name args rest pre post bs : List UInt8} {mem : ByteMem} {a n i : Nat}

/-! ## Reading words -/

theorem findIdx?_spaces (hpre : ∀ b ∈ pre, b = space) (hbody : body ≠ []) (hhead : body.head? ≠ some space) :
    (pre ++ body).findIdx? (· != space) = some pre.length := by
  obtain ⟨b, body, rfl⟩ := List.exists_cons_of_ne_nil hbody
  have hb : b ≠ space := fun h => hhead (by rw [h, List.head?_cons])
  rw [List.findIdx?_eq_some_iff_getElem]
  refine ⟨by simp, by simpa using hb, fun j hj => ?_⟩
  rw [List.getElem_append_left hj, Bool.not_eq_true, bne_eq_false_iff_eq]
  exact hpre _ (List.getElem_mem hj)

theorem findIdx?_all_spaces (h : ∀ b ∈ s, b = space) : s.findIdx? (· != space) = none :=
  List.findIdx?_eq_none_iff.mpr fun b hb => bne_eq_false_iff_eq.mpr (h b hb)

theorem Padded.trim (h : Padded line body) : trim line = body := by
  obtain ⟨pre, post, rfl, hpre, hpost, hhead, hlast⟩ := h
  by_cases hbody : body = []
  · subst hbody
    rw [List.append_nil]
    have hall : ∀ b ∈ pre ++ post, b = space := fun b hb => (List.mem_append.mp hb).elim (hpre b) (hpost b)
    rw [ChodOs.trim, findIdx?_all_spaces hall, findIdx?_all_spaces fun b hb => hall b (List.mem_reverse.mp hb)]
    exact if_pos (Nat.zero_le _)
  · have hlen := List.length_pos_iff.mpr hbody
    have hfront : (pre ++ body ++ post).findIdx? (· != space) = some pre.length := by
      rw [List.append_assoc]
      refine findIdx?_spaces hpre (by simp [hbody]) ?_
      rwa [List.head?_append_of_ne_nil _ hbody]
    have hback : (pre ++ body ++ post).reverse.findIdx? (· != space) = some post.length := by
      rw [List.reverse_append, List.reverse_append, ← List.length_reverse]
      refine findIdx?_spaces (fun b hb => hpost b (List.mem_reverse.mp hb)) (by simp [hbody]) ?_
      rwa [List.head?_append_of_ne_nil _ (by simpa using hbody), List.head?_reverse]
    rw [ChodOs.trim, hfront, hback]
    simp only [Option.getD_some, Option.map_some, List.length_append]
    rw [if_neg (by omega), List.take_left' (by rw [List.length_append]; omega), List.drop_left' rfl]

theorem padded_trim (line : List UInt8) : Padded line (trim line) := by
  obtain ⟨body, hbody⟩ : ∃ body, Padded line body := by
    have hspace : ∀ l : List UInt8, ∀ b ∈ l.takeWhile (· == space), b = space := fun l b hb =>
      beq_iff_eq.mp (List.mem_takeWhile_imp (p := (· == space)) hb)
    have hhead : ∀ l : List UInt8, (l.dropWhile (· == space)).head? ≠ some space := by
      intro l h
      have hnot := List.head?_dropWhile_not (· == space) l
      rw [h] at hnot
      exact absurd hnot (by simp)
    refine ⟨((line.dropWhile (· == space)).reverse.dropWhile (· == space)).reverse, line.takeWhile (· == space),
      ((line.dropWhile (· == space)).reverse.takeWhile (· == space)).reverse, ?_, hspace line,
      fun b hb => hspace _ b (List.mem_reverse.mp hb), ?_, ?_⟩
    · rw [List.append_assoc, ← List.reverse_append, List.takeWhile_append_dropWhile, List.reverse_reverse,
        List.takeWhile_append_dropWhile]
    · intro h
      have hpre : ((line.dropWhile (· == space)).reverse.dropWhile (· == space)).reverse <+: line.dropWhile (· == space) := by
        rw [← List.reverse_suffix, List.reverse_reverse]
        exact List.dropWhile_suffix _
      obtain ⟨rest, hrest⟩ := hpre
      exact hhead line (by rw [← hrest, List.head?_append, h, Option.some_or])
    · rw [List.getLast?_reverse]
      exact hhead _
  rwa [hbody.trim]

theorem trim_append (hpre : ∀ b ∈ pre, b = space) (s : List UInt8) : trim (pre ++ s) = trim s := by
  obtain ⟨pre', post, hs, hpre', hpost, hhead, hlast⟩ := padded_trim s
  refine Padded.trim ⟨pre ++ pre', post, ?_, fun b hb => (List.mem_append.mp hb).elim (hpre b) (hpre' b), hpost, hhead, hlast⟩
  rw [List.append_assoc, List.append_assoc, ← List.append_assoc pre', ← hs]

theorem findIdx?_word (hname : space ∉ name) : name.findIdx? (· == space) = none :=
  List.findIdx?_eq_none_iff.mpr fun _ hb => beq_eq_false_iff_ne.mpr fun h => hname (h ▸ hb)

theorem splitFirstWord_alone (hname : space ∉ name) : splitFirstWord name = (name, []) := by
  rw [splitFirstWord, findIdx?_word hname]

theorem splitFirstWord_eq (hname : space ∉ name) : splitFirstWord (name ++ space :: rest) = (name, trim rest) := by
  have hfind : (name ++ space :: rest).findIdx? (· == space) = some name.length := by
    rw [List.findIdx?_append, findIdx?_word hname, List.findIdx?_cons, if_pos (beq_self_eq_true _), Option.none_or, Option.map_some, Nat.zero_add]
  rw [splitFirstWord, hfind]
  dsimp only
  rw [List.take_left' rfl, List.append_cons, List.drop_left' (by rw [List.length_append, List.length_singleton])]

/-- A text starts with a word. -/
theorem eq_word_or (s : List UInt8) : space ∉ s ∨ ∃ name rest, s = name ++ space :: rest ∧ space ∉ name := by
  by_cases h : space ∈ s
  · obtain ⟨name, rest, hs, hname⟩ := List.eq_append_cons_of_mem h
    exact .inr ⟨name, rest, hs, hname⟩
  · exact .inl h

theorem getLast?_spaces (hpost : ∀ b ∈ post, b = space) (hne : post ≠ []) : (pre ++ post).getLast? = some space := by
  rw [List.getLast?_append_of_ne_nil _ hne, List.getLast?_eq_some_getLast hne, hpost _ (List.getLast_mem hne)]

/-- The words of a line are what the code makes of it. -/
theorem words_iff : Words line name args ↔ trim line ≠ [] ∧ splitFirstWord (trim line) = (name, args) := by
  constructor
  · rintro ⟨sep, hline, hne, hname, hsep, hhead, hsome⟩
    obtain ⟨-, -, -, -, -, -, hlast⟩ := id hline
    rw [hline.trim]
    refine ⟨by simp [hne], ?_⟩
    cases sep with
    | nil =>
      obtain rfl : args = [] := Decidable.byContradiction fun h => hsome h rfl
      rw [List.append_nil, List.append_nil, splitFirstWord_alone hname]
    | cons b sep =>
      obtain ⟨rfl, hsep'⟩ := List.forall_mem_cons.mp hsep
      have hargs : args ≠ [] := by
        rintro rfl
        exact hlast (by rw [List.append_nil]; exact getLast?_spaces hsep (List.cons_ne_nil _ _))
      rw [List.append_assoc, List.cons_append, splitFirstWord_eq hname]
      rw [List.getLast?_append_of_ne_nil _ hargs] at hlast
      rw [Padded.trim ⟨sep, [], (List.append_nil _).symm, hsep', nofun, hhead, hlast⟩]
  · rintro ⟨hne, hsplit⟩
    have hline := padded_trim line
    obtain ⟨-, -, -, -, -, hhead, hlast⟩ := id hline
    generalize trim line = text at *
    rcases eq_word_or text with hword | ⟨word, rest, rfl, hword⟩
    · rw [splitFirstWord_alone hword] at hsplit
      cases hsplit
      exact ⟨[], by rwa [List.append_nil, List.append_nil], hne, hword, nofun, nofun, nofun⟩
    · rw [splitFirstWord_eq hword] at hsplit
      cases hsplit
      obtain ⟨pre, post, hrest, hpre, hpost, hhead', -⟩ := padded_trim rest
      generalize trim rest = args at *
      have hpost : post = [] := by
        refine Decidable.byContradiction fun h => hlast ?_
        rw [hrest, ← List.cons_append, ← List.append_assoc]
        exact getLast?_spaces hpost h
      subst hpost
      rw [List.append_nil] at hrest
      subst hrest
      refine ⟨space :: pre, by rwa [List.append_assoc, List.cons_append], ?_, hword,
        List.forall_mem_cons.mpr ⟨rfl, hpre⟩, hhead', fun _ => List.cons_ne_nil _ _⟩
      rintro rfl
      exact hhead rfl

/-! ## Strings -/

theorem cstrLen_eq {room : Nat} (hbs : (0 : UInt8) ∉ bs) (hm : mem.Holds a (bs ++ [0])) (hroom : bs.length < room) :
    cstrLen mem a room = bs.length := by
  induction bs generalizing a room with
  | nil =>
    obtain ⟨room, rfl⟩ := Nat.exists_eq_succ_of_ne_zero (Nat.ne_of_gt hroom)
    rw [cstrLen, if_pos (ByteMem.holds_singleton.mp hm), List.length_nil]
  | cons b bs ih =>
    obtain ⟨room, rfl⟩ := Nat.exists_eq_succ_of_ne_zero (Nat.ne_of_gt (Nat.lt_of_le_of_lt (Nat.zero_le _) hroom))
    obtain ⟨hb, hbs⟩ := not_or.mp fun h => hbs (List.mem_cons.mpr h)
    rw [List.cons_append, ← List.singleton_append, ByteMem.holds_append, ByteMem.holds_singleton] at hm
    obtain ⟨hfirst, hrest⟩ := hm
    rw [cstrLen, if_neg (by rw [hfirst]; exact fun h => hb h.symm), List.length_cons]
    exact congrArg (· + 1) (ih hbs hrest (Nat.lt_of_succ_lt_succ hroom))

theorem ascii_char : ∀ n < 128, (Char.ofNat n).utf8Size = 1 ∧ (Char.ofNat n).toUInt8 = UInt8.ofNat n := by
  decide +kernel

theorem isValidUTF8_ascii (h : ∀ b ∈ bs, b < 0x80) : ByteArray.IsValidUTF8 ⟨bs.toArray⟩ := by
  induction bs using List.reverseRecOn with
  | nil => exact ByteArray.isValidUTF8_empty
  | append_singleton bs b ih =>
    have hb : b < 0x80 := h b (List.mem_append_right _ (List.mem_singleton_self b))
    obtain ⟨hsize, hval⟩ := ascii_char b.toNat (UInt8.lt_iff_toNat_lt.mp hb)
    have hpush := (ih fun b hb => h b (List.mem_append_left _ hb)).push hsize
    rw [hval, UInt8.ofNat_toNat] at hpush
    change ByteArray.IsValidUTF8 ⟨bs.toArray.push b⟩ at hpush
    rwa [List.push_toArray] at hpush

theorem fromUtf8_ascii (h : ∀ b ∈ bs, b < 0x80) : (fromUtf8 bs).isSome := by
  rw [fromUtf8, String.fromUTF8?, dif_pos (isValidUTF8_ascii h)]
  rfl

theorem readCstr_eq (ha : a ≠ 0) (hbs : (0 : UInt8) ∉ bs) (hascii : ∀ b ∈ bs, b < 0x80) (hm : mem.Holds a (bs ++ [0]))
    (hlen : bs.length < 4096) : readCstr mem a = some bs := by
  rw [readCstr, if_neg ha, cstrLen_eq hbs hm hlen]
  obtain ⟨_, hs⟩ := Option.isSome_iff_exists.mp (fromUtf8_ascii hascii)
  have hread : mem.read a bs.length = bs := (ByteMem.holds_append.mp hm).1
  dsimp only
  rw [hread, hs, Option.map_some]

theorem mem_of_mem_trim {b : UInt8} (h : b ∈ trim s) : b ∈ s := by
  obtain ⟨pre, post, hs, -⟩ := padded_trim s
  rw [hs]
  exact List.mem_append_left _ (List.mem_append_right _ h)

theorem length_trim_le (s : List UInt8) : (trim s).length ≤ s.length := by
  obtain ⟨pre, post, hs, -⟩ := padded_trim s
  have hlen := congrArg List.length hs
  rw [List.length_append, List.length_append] at hlen
  omega

theorem splitFirstWord_sub (s : List UInt8) : (∀ b ∈ (splitFirstWord s).1, b ∈ s) ∧ (∀ b ∈ (splitFirstWord s).2, b ∈ s) ∧
    (splitFirstWord s).2.length ≤ s.length := by
  rw [splitFirstWord]
  split
  · refine ⟨fun b => List.mem_of_mem_take, fun b hb => List.mem_of_mem_drop (mem_of_mem_trim hb), ?_⟩
    exact Nat.le_trans (length_trim_le _) (by rw [List.length_drop]; exact Nat.sub_le _ _)
  · exact ⟨fun _ h => h, nofun, Nat.zero_le _⟩

end ChodOs
