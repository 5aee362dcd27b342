/-
The characters of the keyboard (`handle_scancode` in `kbd.rs`): shift, caps
lock and the two tables. Every text of ASCII characters can be typed, with
keys let go in any order, and what is typed is what is read.
-/
import ChodOs.Gui.Wm
import ChodOs.Input

namespace ChodOs

open StepSys

/-! ## The code -/

/-- `LOWER`. Keys without a character have `0`. -/
def lowerKeys : List UInt8 :=
  textBytes "\x00\x1b1234567890-=\x08\tqwertyuiop[]\n\x00asdfghjkl;'`\x00\\zxcvbnm,./\x00*\x00 "

/-- `UPPER`. -/
def upperKeys : List UInt8 :=
  textBytes "\x00\x1b!@#$%^&*()_+\x08\tQWERTYUIOP\x7b\x7d\n\x00ASDFGHJKL:\"~\x00|ZXCVBNM<>?\x00*\x00 "

/-- `is_alpha`. -/
def isAlphaKey (make : Nat) : Bool :=
  (0x10 ≤ make && make ≤ 0x19) || (0x1E ≤ make && make ≤ 0x26) || (0x2C ≤ make && make ≤ 0x32)

/-- `SHIFT` and `CAPS`. -/
structure Modifiers where
  shift : Bool
  caps : Bool
  deriving DecidableEq

/-- A letter is upper under one of shift and caps lock, another key under shift. -/
def Modifiers.useUpper (m : Modifiers) (make : Nat) : Bool := if isAlphaKey make then m.shift ^^ m.caps else m.shift

/-- `if use_upper { UPPER[make] } else { LOWER[make] }`. -/
def keyChar (useUpper : Bool) (make : Nat) : UInt8 := (if useUpper then upperKeys else lowerKeys).getD make 0

structure Keyboard where
  mods : Modifiers
  input : Input

def Keyboard.boot : Keyboard := ⟨⟨false, false⟩, .boot⟩

/-- `scancode & 0x7F`. -/
def makeOf (scancode : UInt8) : Nat := (scancode &&& 0x7F).toNat

def isShift (make : Nat) : Bool := make == 0x2A || make == 0x36

/-- `handle_scancode`. -/
def Keyboard.handleScancode (s : Keyboard) (scancode : UInt8) : Keyboard :=
  let isBreak : Bool := 0x80 ≤ scancode
  let make := makeOf scancode
  if isShift make then { s with mods := { s.mods with shift := !isBreak } }
  else if !isBreak && make == 0x3A then { s with mods := { s.mods with caps := !s.mods.caps } }
  else if isBreak then s
  else
    let ascii := keyChar (s.mods.useUpper make) make
    if ascii ≠ 0 then { s with input := s.input.pushKey ascii } else s

/-! ## A stream of scan codes -/

namespace Modifiers

/-- What a scan code makes of the modifiers. -/
def next (m : Modifiers) (scancode : UInt8) : Modifiers :=
  let isBreak : Bool := 0x80 ≤ scancode
  let make := makeOf scancode
  if isShift make then { m with shift := !isBreak }
  else if !isBreak && make == 0x3A then { m with caps := !m.caps }
  else m

/-- The character of a scan code. -/
def char (m : Modifiers) (scancode : UInt8) : Option UInt8 :=
  let make := makeOf scancode
  if isShift make || 0x80 ≤ scancode || make == 0x3A then none
  else
    let ascii := keyChar (m.useUpper make) make
    if ascii ≠ 0 then some ascii else none

/-- The characters of a stream, and the modifiers after it. -/
def chars (m : Modifiers) : List UInt8 → List UInt8 × Modifiers
  | [] => ([], m)
  | code :: codes =>
    let (text, m') := (m.next code).chars codes
    ((m.char code).toList ++ text, m')

end Modifiers

/-- A key other than shift is let go. -/
def isRelease (code : UInt8) : Bool := 0x80 ≤ code && !isShift (makeOf code)

/-! ## Typing -/

/-- A key pressed and let go, under shift or not. -/
def press (shift : Bool) (make : Nat) : List UInt8 :=
  let key := [UInt8.ofNat make, UInt8.ofNat (make + 0x80)]
  if shift then 0x2A :: key ++ [0xAA] else key

/-- How a character is typed. -/
def stroke (caps : Bool) (c : UInt8) : List UInt8 :=
  match lowerKeys.findIdx? (· == c) with
  | some make => press (isAlphaKey make && caps) make
  | none =>
    match upperKeys.findIdx? (· == c) with
    | some make => press (!(isAlphaKey make && caps)) make
    | none => []

/-- How a text is typed, caps lock set first or not. -/
def strokes (caps : Bool) (text : List UInt8) : List UInt8 :=
  (if caps then [0x3A, 0xBA] else []) ++ text.flatMap (stroke caps)

/-- ASCII characters, and backspace, tab, newline and escape. -/
def isTypeable (c : UInt8) : Bool := isPrintable c || c == 0x08 || c == 0x09 || c == newline || c == 0x1B

namespace Modifiers

variable {m : Modifiers} {c code : UInt8} {codes codes' text : List UInt8} {caps : Bool}

theorem chars_append (m : Modifiers) (codes codes' : List UInt8) :
    m.chars (codes ++ codes') =
      ((m.chars codes).1 ++ ((m.chars codes).2.chars codes').1, ((m.chars codes).2.chars codes').2) := by
  induction codes generalizing m with
  | nil => rfl
  | cons code codes ih => simp only [List.cons_append, chars, ih, List.append_assoc]

/-- Keys that are let go make no difference. -/
theorem chars_filter (m : Modifiers) (codes : List UInt8) :
    m.chars (codes.filter fun code => !isRelease code) = m.chars codes := by
  induction codes generalizing m with
  | nil => rfl
  | cons code codes ih =>
    cases hr : isRelease code with
    | false => simp only [List.filter_cons, hr, Bool.not_false, if_true, chars, ih]
    | true =>
      have hnext : m.next code = m := by
        simp only [isRelease, Bool.and_eq_true, Bool.not_eq_true', decide_eq_true_eq] at hr
        simp [next, hr]
      have hchar : m.char code = none := by
        simp only [isRelease, Bool.and_eq_true, Bool.not_eq_true', decide_eq_true_eq] at hr
        simp [char, hr]
      simp only [List.filter_cons, hr, Bool.not_true, Bool.false_eq_true, if_false, chars, ih, hnext, hchar]
      rfl

theorem makeOf_lt : makeOf code < 128 := by
  rw [makeOf, UInt8.toNat_and]
  exact Nat.lt_of_le_of_lt Nat.and_le_right (by decide)

/-- Whatever comes from a key is an ASCII character. -/
theorem isTypeable_of_char (h : m.char code = some c) : isTypeable c = true := by
  have htables : ∀ make < 128, ∀ upper : Bool,
      keyChar upper make ≠ 0 → isTypeable (keyChar upper make) = true := by
    decide +kernel
  simp only [char] at h
  split at h
  · cases h
  · split at h
    · next hne =>
      cases h
      exact htables _ makeOf_lt _ hne
    · cases h

theorem chars_stroke (h : isTypeable c = true) : (⟨false, caps⟩ : Modifiers).chars (stroke caps c) = ([c], ⟨false, caps⟩) := by
  have hall : ∀ n < 256, ∀ caps : Bool, isTypeable (UInt8.ofNat n) = true →
      (⟨false, caps⟩ : Modifiers).chars (stroke caps (UInt8.ofNat n)) = ([UInt8.ofNat n], ⟨false, caps⟩) := by
    decide +kernel
  have hc := hall c.toNat c.toNat_lt caps
  rw [UInt8.ofNat_toNat] at hc
  exact hc h

theorem chars_flatMap_stroke (h : ∀ c ∈ text, isTypeable c = true) :
    (⟨false, caps⟩ : Modifiers).chars (text.flatMap (stroke caps)) = (text, ⟨false, caps⟩) := by
  induction text with
  | nil => rfl
  | cons c text ih =>
    obtain ⟨hc, htext⟩ := List.forall_mem_cons.mp h
    rw [List.flatMap_cons, chars_append, chars_stroke hc, ih htext]
    rfl

/-- A text as it is typed. -/
theorem chars_strokes (h : ∀ c ∈ text, isTypeable c = true) :
    (⟨false, false⟩ : Modifiers).chars (strokes caps text) = (text, ⟨false, caps⟩) := by
  have hcaps : (⟨false, false⟩ : Modifiers).chars (if caps then [0x3A, 0xBA] else []) = ([], ⟨false, caps⟩) := by
    cases caps <;> decide
  rw [strokes, chars_append, hcaps, chars_flatMap_stroke h]
  rfl

end Modifiers

/-! ## Runs -/

namespace Keyboard

variable {s s' : Keyboard} {code : UInt8}

/-- A character goes to the rings, and there is nothing else. -/
theorem handleScancode_eq (s : Keyboard) (code : UInt8) : s.handleScancode code =
    ⟨s.mods.next code, ((s.mods.char code).elim s.input s.input.pushKey)⟩ := by
  cases hs : isShift (makeOf code) with
  | true => simp [handleScancode, Modifiers.next, Modifiers.char, hs]
  | false =>
    by_cases hb : (0x80 : UInt8) ≤ code
    · simp [handleScancode, Modifiers.next, Modifiers.char, hs, hb]
    · by_cases hc : makeOf code = 0x3A
      · have h3a : isShift 0x3A = false := rfl
        simp [handleScancode, Modifiers.next, Modifiers.char, hb, hc, h3a]
      · simp only [handleScancode, Modifiers.next, Modifiers.char, hs, hb]
        by_cases ha : keyChar (s.mods.useUpper (makeOf code)) (makeOf code) = 0 <;> simp [ha, hc]

end Keyboard

/-- A scan code comes, or `stdin` is read. -/
inductive KeyOp
  | scan (code : UInt8)
  | read
  | pop

/-- A scan code, a character for which `stdin` had no room, a byte read. -/
inductive KeyEvent
  | scanned (code : UInt8)
  | lost (c : UInt8)
  | read (byte : UInt8)
  deriving DecidableEq

def Keyboard.step (s : Keyboard) : KeyOp → Option (List KeyEvent × Keyboard)
  | .scan code =>
    let lost := (s.mods.char code).filter fun _ => s.input.kbd.isFull
    some (.scanned code :: lost.toList.map .lost, s.handleScancode code)
  | .read => some (s.input.tryPop.1.toList.map .read, { s with input := s.input.tryPop.2 })
  | .pop => some ([], { s with input := s.input.popEvent.2 })

/-- The scan codes of a run. -/
def codesOf (h : List KeyEvent) : List UInt8 :=
  h.filterMap fun
    | .scanned code => some code
    | _ => none

/-- The bytes read in a run. -/
def bytesOf (h : List KeyEvent) : List UInt8 :=
  h.filterMap fun
    | .read byte => some byte
    | _ => none

variable {s : Keyboard} {h : List KeyEvent}

theorem Input.contents_pushKey (s : Input) (c : UInt8) :
    (s.pushKey c).kbd.contents = if s.kbd.isFull then s.kbd.contents else s.kbd.contents ++ [c] := by
  rw [← RingBuf.contents_push_getD, pushKey]
  cases s.kbd.push c <;> rfl

theorem Input.contents_tryPop (s : Input) : s.tryPop.1.toList ++ s.tryPop.2.kbd.contents = s.kbd.contents := by
  rw [tryPop]
  cases hp : s.kbd.pop with
  | none => rfl
  | some r =>
    rw [RingBuf.pop_contents hp]
    rfl

theorem Input.kbd_popEvent (s : Input) : s.popEvent.2.kbd = s.kbd := by
  rw [popEvent]
  cases s.ring.pop <;> rfl

/-- What has been read and what is there to be read are the characters of the stream, if none was lost. -/
structure Keyboard.Balanced (h : List KeyEvent) (s : Keyboard) : Prop where
  mods : (Modifiers.chars ⟨false, false⟩ (codesOf h)).2 = s.mods
  text : (∀ c, .lost c ∉ h) → bytesOf h ++ s.input.kbd.contents = (Modifiers.chars ⟨false, false⟩ (codesOf h)).1
  typeable : ∀ c ∈ bytesOf h ++ s.input.kbd.contents, isTypeable c = true

namespace Keyboard.Balanced

theorem codesOf_append (h h' : List KeyEvent) : codesOf (h ++ h') = codesOf h ++ codesOf h' := List.filterMap_append

theorem bytesOf_append (h h' : List KeyEvent) : bytesOf (h ++ h') = bytesOf h ++ bytesOf h' := List.filterMap_append

theorem scan (hb : Balanced h s) (code : UInt8) : Balanced
    (h ++ .scanned code :: ((s.mods.char code).filter fun _ => s.input.kbd.isFull).toList.map .lost)
    (s.handleScancode code) := by
  generalize hl : (s.mods.char code).filter _ = lost
  have hcodes : codesOf (.scanned code :: lost.toList.map .lost) = [code] := by cases lost <;> rfl
  have hbytes : bytesOf (.scanned code :: lost.toList.map .lost) = [] := by cases lost <;> rfl
  have hchars : Modifiers.chars ⟨false, false⟩ (codesOf h ++ [code]) =
      ((Modifiers.chars ⟨false, false⟩ (codesOf h)).1 ++ (s.mods.char code).toList, s.mods.next code) := by
    rw [Modifiers.chars_append, hb.mods]
    simp [Modifiers.chars]
  refine ⟨?_, fun hlost => ?_, ?_⟩
  · rw [codesOf_append, hcodes, hchars, handleScancode_eq]
  · rw [codesOf_append, hcodes, hchars, bytesOf_append, hbytes, List.append_nil, handleScancode_eq,
      ← hb.text fun c hc => hlost c (List.mem_append.mpr (.inl hc)), List.append_assoc]
    cases hc : s.mods.char code with
    | none => simp
    | some c =>
      have hroom : s.input.kbd.isFull = false := by
        rw [← Bool.not_eq_true]
        intro hfull
        rw [hc, Option.filter_some, if_pos hfull] at hl
        subst hl
        exact hlost c (List.mem_append.mpr (.inr (List.mem_cons_of_mem _ (List.mem_singleton.mpr rfl))))
      simp [Input.contents_pushKey, hroom]
  · rw [bytesOf_append, hbytes, List.append_nil, handleScancode_eq]
    cases hc : s.mods.char code with
    | none => exact hb.typeable
    | some c =>
      intro c' hc'
      rw [Option.elim_some, Input.contents_pushKey] at hc'
      split at hc'
      · exact hb.typeable c' hc'
      · rw [← List.append_assoc, List.mem_append, List.mem_singleton] at hc'
        exact hc'.elim (hb.typeable c') fun he => he ▸ Modifiers.isTypeable_of_char hc

theorem read (hb : Balanced h s) :
    Balanced (h ++ s.input.tryPop.1.toList.map .read) { s with input := s.input.tryPop.2 } := by
  have hcodes : codesOf (s.input.tryPop.1.toList.map .read) = [] := by cases s.input.tryPop.1 <;> rfl
  have hbytes : bytesOf (s.input.tryPop.1.toList.map .read) = s.input.tryPop.1.toList := by
    cases s.input.tryPop.1 <;> rfl
  have hsame : bytesOf (h ++ s.input.tryPop.1.toList.map .read) ++ s.input.tryPop.2.kbd.contents =
      bytesOf h ++ s.input.kbd.contents := by
    rw [bytesOf_append, hbytes, List.append_assoc, Input.contents_tryPop]
  refine ⟨?_, fun hlost => ?_, ?_⟩
  · rw [codesOf_append, hcodes, List.append_nil]
    exact hb.mods
  · rw [codesOf_append, hcodes, List.append_nil, hsame]
    exact hb.text fun c hc => hlost c (List.mem_append.mpr (.inl hc))
  · rw [hsame]
    exact hb.typeable

end Keyboard.Balanced

theorem Keyboard.balanced (hr : Runs Keyboard.step free .boot h s) : Balanced h s := by
  refine hr.invariant Balanced ⟨rfl, fun _ => rfl, fun c hc => by cases hc⟩ ?_
  intro h s op es s' ih _ hs
  cases op with
  | scan code =>
    cases hs
    exact ih.scan code
  | read =>
    cases hs
    exact ih.read
  | pop =>
    cases hs
    rw [List.append_nil]
    refine ⟨ih.mods, fun hlost => ?_, ?_⟩
    · rw [Input.kbd_popEvent]
      exact ih.text hlost
    · rw [Input.kbd_popEvent]
      exact ih.typeable

/-- A text of ASCII characters, backspaces, tabs, newlines and escapes is
typed key by key, with caps lock or without, shift held where it has to be,
the other keys let go in whatever order. While `stdin` has room, what has been read and what is left
to be read is that text; and nothing else than such characters is ever read. -/
theorem typed_text_is_read (hr : Runs Keyboard.step free .boot h s) :
    (∀ c ∈ bytesOf h, isTypeable c = true) ∧
    ∀ caps text, (∀ c, .lost c ∉ h) → (∀ c ∈ text, isTypeable c = true) →
      ((codesOf h).filter fun code => !isRelease code) = ((strokes caps text).filter fun code => !isRelease code) →
      bytesOf h ++ s.input.kbd.contents = text := by
  have hb := Keyboard.balanced hr
  refine ⟨fun c hc => hb.typeable c (List.mem_append.mpr (.inl hc)), fun caps text hlost htext hcodes => ?_⟩
  rw [hb.text hlost, ← Modifiers.chars_filter, hcodes, Modifiers.chars_filter, Modifiers.chars_strokes htext]

/-- `Hi!`, the keys let go late, and two of the three bytes read. -/
theorem typed_text_is_read_hi : ∃ h s, Runs Keyboard.step free .boot h s ∧ bytesOf h = [0x48, 0x69] ∧
    bytesOf h ++ s.input.kbd.contents = [0x48, 0x69, 0x21] := by
  obtain ⟨h, s, hr, hP⟩ := Runs.of_exec Keyboard.step free .boot
    ([0x2A, 0x23, 0xAA].map .scan ++ [.read] ++ [0x17, 0xA3, 0x2A, 0x97, 0x02, 0xAA].map .scan ++ [.read])
    (fun h _ => bytesOf h == [0x48, 0x69] && (h.all fun | .lost _ => false | _ => true) &&
      ((codesOf h).filter fun code => !isRelease code) ==
        ((strokes false [0x48, 0x69, 0x21]).filter fun code => !isRelease code)) (by decide +kernel)
  simp only [Bool.and_eq_true, beq_iff_eq] at hP
  obtain ⟨⟨hbytes, hlost⟩, hcodes⟩ := hP
  refine ⟨h, s, hr, hbytes, (typed_text_is_read hr).2 false _ (fun c hc => ?_) (List.all_eq_true.mp (by decide)) hcodes⟩
  exact absurd (List.all_eq_true.mp hlost _ hc) Bool.false_ne_true

end ChodOs
