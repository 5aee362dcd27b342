/-
Keyboard input (`kbd.rs`, `input_direct.rs`): one key press feeds two rings,
the one `stdin` is read from and the one the input driver empties, which
mouse events go into as well. Whether a key reaches the second depends on
the first: the exact condition, over every run.
-/
import ChodOs.Lib.RingBuf
import ChodOs.Lib.Run

namespace ChodOs

open StepSys

/-! ## Events as words -/

def evtKey : Nat := 0
def evtMouseMove : Nat := 1
def evtMouseClick : Nat := 2

/-- The word of a key press. -/
def keyEvent (ascii : UInt8) : Nat := evtKey ||| ascii.toNat <<< 2

/-- A mouse coordinate: `max(0).min(2047)`. -/
def clampCoord (x : Int) : Nat := (min (max x 0) 2047).toNat

/-- The word of a mouse event of type `type`; a move has no buttons. -/
def mouseEvent (type : Nat) (x y : Int) (btns : UInt8) : Nat :=
  type ||| (btns.toNat &&& 7) <<< 2 ||| clampCoord x <<< 10 ||| clampCoord y <<< 21

/-- The key of a word, as `input_consumer_task` reads it. -/
def keyOf (val : Nat) : Option UInt8 :=
  if val &&& 3 = evtKey then some (UInt8.ofNat (val >>> 2 &&& 0xFF)) else none

@[simp] theorem keyOf_keyEvent (ascii : UInt8) : keyOf (keyEvent ascii) = some ascii := by
  have hlt : ascii.toNat < 2 ^ 8 := ascii.toNat_lt
  have htype : keyEvent ascii &&& 3 = evtKey := by
    rw [keyEvent, evtKey, Nat.zero_or, show (3 : Nat) = 2 ^ 2 - 1 from rfl, Nat.and_two_pow_sub_one_eq_mod,
      Nat.shiftLeft_eq, Nat.mul_mod_left]
  have hascii : keyEvent ascii >>> 2 &&& 0xFF = ascii.toNat := by
    rw [keyEvent, evtKey, Nat.zero_or, Nat.shiftLeft_shiftRight, show (0xFF : Nat) = 2 ^ 8 - 1 from rfl,
      Nat.and_two_pow_sub_one_eq_mod, Nat.mod_eq_of_lt hlt]
  rw [keyOf, if_pos htype, hascii, UInt8.ofNat_toNat]

/-- A mouse event is not read as a key. -/
theorem keyOf_mouseEvent {type : Nat} (ht : type % 4 ≠ 0) (x y : Int) (btns : UInt8) :
    keyOf (mouseEvent type x y btns) = none := by
  have hshift : ∀ n k : Nat, 2 ≤ k → n <<< k % 2 ^ 2 = 0 := fun n k hk => by
    rw [Nat.shiftLeft_eq, ← Nat.pow_sub_mul_pow 2 hk, ← Nat.mul_assoc, Nat.mul_mod_left]
  refine if_neg ?_
  rw [show (3 : Nat) = 2 ^ 2 - 1 from rfl, Nat.and_two_pow_sub_one_eq_mod, mouseEvent, Nat.or_mod_two_pow,
    Nat.or_mod_two_pow, Nat.or_mod_two_pow, hshift _ _ (by decide), hshift _ _ (by decide), hshift _ _ (by decide)]
  simpa [evtKey] using ht

/-! ## The two rings -/

/-- `KBD` and `RING`. -/
structure Input where
  kbd : RingBuf UInt8 64
  ring : RingBuf Nat 64

namespace Input

/-- Both rings as the statics are. -/
def boot : Input := ⟨⟨fun _ => 0, 0, 0⟩, ⟨fun _ => 0, 0, 0⟩⟩

/-- `input_direct::push_event`: a full ring drops the event. -/
def pushEvent (s : Input) (val : Nat) : Input := { s with ring := (s.ring.push val).getD s.ring }

/-- `input_direct::push_mouse_move`. -/
def pushMouseMove (s : Input) (x y : Int) : Input := s.pushEvent (mouseEvent evtMouseMove x y 0)

/-- `input_direct::push_mouse_click`. -/
def pushMouseClick (s : Input) (x y : Int) (btns : UInt8) : Input := s.pushEvent (mouseEvent evtMouseClick x y btns)

/-- `kbd::push_key`: a full `stdin` ring drops the key, before the direct ring is tried. -/
def pushKey (s : Input) (ascii : UInt8) : Input :=
  match s.kbd.push ascii with
  | none => s
  | some kbd => { s with kbd }.pushEvent (keyEvent ascii)

/-- `kbd::try_pop`. -/
def tryPop (s : Input) : Option UInt8 × Input :=
  match s.kbd.pop with
  | none => (none, s)
  | some (byte, kbd) => (some byte, { s with kbd })

/-- `input_direct::pop_event`. -/
def popEvent (s : Input) : Option Nat × Input :=
  match s.ring.pop with
  | none => (none, s)
  | some (val, ring) => (some val, { s with ring })

end Input

inductive InputOp
  | key (ascii : UInt8)
  | mouseMove (x y : Int)
  | mouseClick (x y : Int) (btns : UInt8)
  | read
  | pop

/-- What happened: a key pressed, with whether each ring was full then; a
byte read from `stdin`; an event popped. -/
inductive InputEvent
  | pressed (ascii : UInt8) (stdinFull directFull : Bool)
  | read (byte : UInt8)
  | popped (val : Nat)
  deriving DecidableEq

def Input.step (s : Input) : InputOp → Option (List InputEvent × Input)
  | .key ascii => some ([.pressed ascii s.kbd.isFull s.ring.isFull], s.pushKey ascii)
  | .mouseMove x y => some ([], s.pushMouseMove x y)
  | .mouseClick x y btns => some ([], s.pushMouseClick x y btns)
  | .read => some (s.tryPop.1.toList.map .read, s.tryPop.2)
  | .pop => some (s.popEvent.1.toList.map .popped, s.popEvent.2)

/-! ## Keys that are owed and keys that come -/

/-- The keys `pop_event` returned. -/
def keysPopped (h : List InputEvent) : List UInt8 :=
  h.filterMap fun
    | .popped val => keyOf val
    | _ => none

/-- The keys pressed while the direct ring was not full. -/
def keysOwed (h : List InputEvent) : List UInt8 :=
  h.filterMap fun
    | .pressed ascii _ false => some ascii
    | _ => none

/-- Of these, the ones pressed while the `stdin` ring was not full either. -/
def keysTaken (h : List InputEvent) : List UInt8 :=
  h.filterMap fun
    | .pressed ascii false false => some ascii
    | _ => none

@[simp] theorem keysPopped_append (h h' : List InputEvent) : keysPopped (h ++ h') = keysPopped h ++ keysPopped h' :=
  List.filterMap_append

@[simp] theorem keysTaken_append (h h' : List InputEvent) : keysTaken (h ++ h') = keysTaken h ++ keysTaken h' :=
  List.filterMap_append

/-- The keys still in the direct ring. -/
def Input.keysPending (s : Input) : List UInt8 := s.ring.contents.filterMap keyOf

/-- A mouse event leaves the keys as they are. -/
theorem Input.keysPending_pushEvent_mouse {type : Nat} (ht : type % 4 ≠ 0) (s : Input) (x y : Int) (btns : UInt8) :
    (s.pushEvent (mouseEvent type x y btns)).keysPending = s.keysPending := by
  unfold pushEvent keysPending
  cases hp : s.ring.push (mouseEvent type x y btns) with
  | none => rfl
  | some r => simp [RingBuf.push_contents hp, keyOf_mouseEvent ht]

/-- A key press adds its key exactly when neither ring is full. -/
theorem Input.keysPending_pushKey (s : Input) (ascii : UInt8) :
    (s.pushKey ascii).keysPending =
      s.keysPending ++ keysTaken [.pressed ascii s.kbd.isFull s.ring.isFull] := by
  unfold pushKey
  by_cases hk : s.kbd.isFull = true
  · have hpush : s.kbd.push ascii = none := if_pos hk
    simp [hpush, hk, keysTaken]
  · have hpush : s.kbd.push ascii = some { s.kbd with
        buf := Function.update s.kbd.buf s.kbd.tail ascii, tail := RingBuf.slot s.kbd.tail 1 } := if_neg hk
    rw [Bool.not_eq_true] at hk
    simp only [hpush, hk, pushEvent, keysPending]
    cases hp : s.ring.push (keyEvent ascii) with
    | none =>
      have hf : s.ring.isFull = true := by
        by_contra hf
        rw [RingBuf.push, if_neg hf] at hp
        cases hp
      simp [hf, keysTaken]
    | some r =>
      have hf : s.ring.isFull = false := by
        rw [← Bool.not_eq_true]
        intro hf
        rw [RingBuf.push, if_pos hf] at hp
        cases hp
      simp [RingBuf.push_contents hp, hf, keysTaken]

/-- Popped keys and those in the ring are the ones both rings had room for. -/
theorem Input.popped_pending {h : List InputEvent} {s : Input} (hr : Runs Input.step free .boot h s) :
    keysPopped h ++ s.keysPending = keysTaken h := by
  refine hr.invariant (fun h s => keysPopped h ++ s.keysPending = keysTaken h) rfl ?_
  intro h s op es s' ih _ hs
  cases op with
  | key ascii =>
    cases hs
    rw [keysPending_pushKey, keysTaken_append, keysPopped_append, ← ih]
    simp [keysPopped]
  | mouseMove x y =>
    cases hs
    rw [pushMouseMove, keysPending_pushEvent_mouse (by decide), List.append_nil, ih]
  | mouseClick x y btns =>
    cases hs
    rw [pushMouseClick, keysPending_pushEvent_mouse (by decide), List.append_nil, ih]
  | read =>
    cases hs
    have hring : s.tryPop.2.keysPending = s.keysPending := by
      unfold tryPop
      split <;> rfl
    have hpop : ∀ o : Option UInt8, keysPopped (o.toList.map .read) = [] := fun o => by cases o <;> rfl
    have htaken : ∀ o : Option UInt8, keysTaken (o.toList.map .read) = [] := fun o => by cases o <;> rfl
    rw [keysPopped_append, keysTaken_append, hring, hpop, htaken, List.append_nil, List.append_nil, ih]
  | pop =>
    cases hs
    unfold popEvent
    cases hp : s.ring.pop with
    | none => simpa using ih
    | some r =>
      obtain ⟨val, ring⟩ := r
      rw [keysPending, RingBuf.pop_contents hp] at ih
      rw [keysPopped_append, keysTaken_append, ← ih]
      cases hk : keyOf val <;> simp [keysPopped, keysTaken, keysPending, hk]

/-- The keys taken are all the keys owed when no key came to a full `stdin`
ring and a direct ring with room. -/
theorem keysTaken_eq_keysOwed_iff (h : List InputEvent) :
    keysTaken h = keysOwed h ↔ ∀ ascii, .pressed ascii true false ∉ h := by
  have hsub : ∀ h, (keysTaken h).length ≤ (keysOwed h).length := fun h => by
    induction h with
    | nil => exact Nat.le_refl _
    | cons e h ih =>
      rcases e with ⟨ascii, _ | _, _ | _⟩ | byte | val <;> simp [keysTaken, keysOwed] at ih ⊢ <;> omega
  induction h with
  | nil => simp [keysTaken, keysOwed]
  | cons e h ih =>
    rcases e with ⟨ascii, _ | _, _ | _⟩ | byte | val
    case pressed.true.false =>
      -- The key is owed and not taken: one list is longer than the other.
      have hne : keysTaken (.pressed ascii true false :: h) ≠ keysOwed (.pressed ascii true false :: h) := fun he => by
        have hlen := congrArg List.length he
        have hle := hsub h
        have htaken : keysTaken (.pressed ascii true false :: h) = keysTaken h := rfl
        have howed : keysOwed (.pressed ascii true false :: h) = ascii :: keysOwed h := rfl
        rw [htaken, howed, List.length_cons] at hlen
        omega
      simp only [hne, false_iff, not_forall, not_not]
      exact ⟨ascii, List.mem_cons_self⟩
    all_goals simp_all [keysTaken, keysOwed]

/-- In every run the keys `pop_event` has returned, followed by those it
returns until the ring is empty, are the keys pressed while the direct ring
was not full, exactly when each of these found room in the `stdin` ring too. -/
theorem direct_keys_iff {h : List InputEvent} {s : Input} (hr : Runs Input.step free .boot h s) :
    keysPopped h ++ (s.ring.drain 64).filterMap keyOf = keysOwed h ↔ ∀ ascii, .pressed ascii true false ∉ h := by
  rw [RingBuf.drain_cap, ← keysTaken_eq_keysOwed_iff, ← Input.popped_pending hr]
  rfl

/-- A key, a mouse move and a key; the driver pops twice. -/
theorem direct_keys_iff_mouse : ∃ h s, Runs Input.step free .boot h s ∧ keysOwed h = [65, 66] ∧
    (keysPopped h ++ (s.ring.drain 64).filterMap keyOf = keysOwed h ↔ ∀ ascii, .pressed ascii true false ∉ h) := by
  obtain ⟨h, s, hr, hP⟩ := Runs.of_exec Input.step free .boot [.key 65, .mouseMove 40 400, .key 66, .pop, .pop]
    (fun h _ => decide (keysOwed h = [65, 66])) (by decide)
  exact ⟨h, s, hr, of_decide_eq_true hP, direct_keys_iff hr⟩

/-- Not every key reaches the driver: nobody reads `stdin`, 63 keys fill it,
and the next is lost though the driver has made room. -/
theorem key_lost_of_stdin_full : ¬ ∀ (h : List InputEvent) (s : Input), Runs Input.step free .boot h s →
    keysPopped h ++ (s.ring.drain 64).filterMap keyOf = keysOwed h := by
  intro hall
  obtain ⟨h, s, hr, hP⟩ := Runs.of_exec Input.step free .boot (List.replicate 63 (.key 65) ++ [.pop, .key 66])
    (fun h s => decide (keysPopped h ++ (s.ring.drain 64).filterMap keyOf ≠ keysOwed h)) (by decide +kernel)
  exact of_decide_eq_true hP (hall h s hr)

end ChodOs
