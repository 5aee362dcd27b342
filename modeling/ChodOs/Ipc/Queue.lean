/-
The message queues as the pairs of processes see them: what is queued for a
pair, and what `send_message` and the queue half of `recv` do to it.
-/
import ChodOs.Ipc.Calls

namespace ChodOs

/-- What waits in the receiver's queue for a pair, oldest first. -/
def queueOf (s : Scheduler) (p : Pid × Pid) : List (List UInt8) :=
  ((s.find p.2).elim [] fun pr => pr.messageQueue.filter (·.sender == p.1)).map Message.payload

/-- Every queued message carries its own data. -/
def QueuesInline (s : Scheduler) : Prop :=
  ∀ (q : Pid) (pr : Process), s.find q = some pr → ∀ m ∈ pr.messageQueue, m.fastCap = 0

theorem queueOf_updatePid {s : Scheduler} {pid : Pid} {f : Process → Process} (hf : ∀ p, (f p).pid = p.pid)
    (p : Pid × Pid) : queueOf (s.updatePid pid f) p =
      if p.2 = pid then
        ((s.find pid).elim [] fun pr => (f pr).messageQueue.filter (·.sender == p.1)).map Message.payload
      else queueOf s p := by
  simp only [queueOf, Scheduler.find_updatePid hf]
  split
  · next he => rw [he]; cases s.find pid <;> rfl
  · rfl

/-- An update that leaves the queue alone. -/
theorem queueOf_updatePid_of_queue {s : Scheduler} {pid : Pid} {f : Process → Process}
    (hf : ∀ p, (f p).pid = p.pid) (hq : ∀ p, (f p).messageQueue = p.messageQueue) :
    queueOf (s.updatePid pid f) = queueOf s := by
  funext p
  rw [queueOf_updatePid hf]
  split
  · next he => simp only [queueOf, hq, he]
  · rfl

theorem find_updatePid_queue {s : Scheduler} (pid : Pid) {f : Process → Process} (hf : ∀ p, (f p).pid = p.pid)
    (hq : ∀ p, (f p).messageQueue = p.messageQueue) {q : Pid} {pr : Process} (h : s.find q = some pr) :
    ∃ pr', (s.updatePid pid f).find q = some pr' ∧ pr'.messageQueue = pr.messageQueue := by
  rw [Scheduler.find_updatePid hf, h]
  split
  · exact ⟨_, rfl, hq pr⟩
  · exact ⟨pr, rfl, rfl⟩

theorem QueuesInline.updatePid {s : Scheduler} (h : QueuesInline s) {pid : Pid} {f : Process → Process}
    (hf : ∀ p, (f p).pid = p.pid)
    (hm : ∀ pr, s.find pid = some pr → ∀ m ∈ (f pr).messageQueue, m ∈ pr.messageQueue ∨ m.fastCap = 0) :
    QueuesInline (s.updatePid pid f) := by
  intro q pr hq m hmem
  rw [Scheduler.find_updatePid hf] at hq
  split at hq
  · next he =>
    subst he
    obtain ⟨pr', hpr, rfl⟩ := Option.map_eq_some_iff.mp hq
    rcases hm pr' hpr m hmem with hold | h0
    · exact h q pr' hpr m hold
    · exact h0
  · exact h q pr hq m hmem

/-! ## `send_message` -/

/-- The scheduler after `send_message`: two updates by pid. -/
theorem sendMessage_sched {k : Kernel} (hd : k.sched.PidsDistinct) (dst : Pid) (msg : Message) :
    (k.sendMessage dst msg).2.sched =
      (k.sched.updatePid k.sched.currentPid fun p => (p.recordIpcSend dst).2).updatePid dst (Process.push msg) := by
  simp only [Kernel.sendMessage, Scheduler.recordSend, Scheduler.deliver, Scheduler.updateCurrent_eq hd]

/-- What `send_message` does, as far as IPC sees it. -/
structure Queued (k k' : Kernel) (dst : Pid) (msg : Message) : Prop where
  ipc : k'.ipc = k.ipc
  pids : k'.sched.PidsDistinct
  me : k'.sched.currentPid = k.sched.currentPid
  has : ∀ q, k'.sched.has q = k.sched.has q
  inline : QueuesInline k.sched → msg.fastCap = 0 → QueuesInline k'.sched
  queue : ∀ p : Pid × Pid, queueOf k'.sched p =
    queueOf k.sched p ++ if p = (msg.sender, dst) ∧ k.sched.has dst then [msg.payload] else []

theorem sendMessage_queued {k : Kernel} (hd : k.sched.PidsDistinct) (dst : Pid) (msg : Message) :
    Queued k (k.sendMessage dst msg).2 dst msg := by
  have hs := sendMessage_sched hd dst msg
  have h₁ := fun p : Process => p.recordIpcSend_pid dst
  have h₂ := Process.push_pid msg
  refine ⟨rfl, ?_, ?_, fun q => ?_, fun hi h0 => ?_, fun p => ?_⟩
  · rw [hs]; exact (hd.updatePid h₁).updatePid h₂
  · rw [hs, Scheduler.currentPid_updatePid h₂, Scheduler.currentPid_updatePid h₁]
  · rw [hs, Scheduler.has_updatePid h₂, Scheduler.has_updatePid h₁]
  · rw [hs]
    refine (hi.updatePid h₁ fun pr _ m hm => .inl hm).updatePid h₂ fun pr _ m hm => ?_
    rcases List.mem_append.mp hm with hm | hm
    · exact .inl hm
    · rw [List.mem_singleton.mp hm]; exact .inr h0
  · rw [hs, queueOf_updatePid h₂]
    -- The receiver's queue, if there is a receiver, gets the message at its end.
    split
    · next hp =>
      cases hf : k.sched.find dst with
      | none =>
        have hhas := Scheduler.find_eq_none.mp hf
        simp [Scheduler.find_updatePid h₁, hf, queueOf, hp, hhas]
      | some pr =>
        have hhas : k.sched.has dst = true := by
          rw [← Bool.not_eq_false, ← Scheduler.find_eq_none, hf]; simp
        obtain ⟨pr', hpr', hmq⟩ :=
          find_updatePid_queue k.sched.currentPid h₁ (fun p => p.recordIpcSend_messageQueue dst) hf
        simp only [hpr', Option.elim_some, Process.push, hmq, List.filter_append, List.map_append, queueOf, hp, hf,
          hhas, and_true]
        congr 1
        by_cases hsend : msg.sender = p.1
        · rw [if_pos (Prod.ext hsend.symm hp)]; simp [hsend]
        · rw [if_neg fun he => hsend (by rw [he])]; simp [hsend]
    · next hp =>
      rw [queueOf_updatePid_of_queue h₁ fun _ => rfl, if_neg fun he => hp (by rw [he.1]), List.append_nil]

theorem sendMessage_ok (k : Kernel) (dst : Pid) (msg : Message) (hd : k.sched.PidsDistinct) :
    (k.sendMessage dst msg).1 = k.sched.has dst := by
  simp only [Kernel.sendMessage, Scheduler.recordSend, Scheduler.deliver, Scheduler.updateCurrent_eq hd]
  exact Scheduler.has_updatePid (fun p => p.recordIpcSend_pid dst) dst

/-! ## The queue half of `recv` -/

/-- What taking from the queue does. -/
structure Popped (k k' : Kernel) (msg : Option Message) : Prop where
  ipc : k'.ipc = k.ipc
  pids : k'.sched.PidsDistinct
  me : k'.sched.currentPid = k.sched.currentPid
  has : ∀ q, k'.sched.has q = k.sched.has q
  inline : QueuesInline k'.sched
  queue : ∀ p : Pid × Pid, queueOf k.sched p =
    (msg.toList.filter fun m => decide ((m.sender, k.sched.currentPid) = p)).map Message.payload ++ queueOf k'.sched p

/-- With inline messages only, the queue always answers, with its front. -/
theorem recvQueue_popped {k : Kernel} (hd : k.sched.PidsDistinct) (hi : QueuesInline k.sched) :
    ∃ k', k.recvQueue = some (k.sched.cur.messageQueue.head?, k') ∧ Popped k k' k.sched.cur.messageQueue.head? := by
  have hfind := Scheduler.find_currentPid hd
  have hs : k.sched.recvMessage.2 = k.sched.updatePid k.sched.currentPid Process.pop := Scheduler.updateCurrent_eq hd _
  refine ⟨{ k with sched := k.sched.recvMessage.2 }, ?_, rfl, ?_, ?_, fun q => ?_, ?_, fun p => ?_⟩
  · simp only [Kernel.recvQueue, Scheduler.recvMessage]
    cases hq : k.sched.cur.messageQueue.head? with
    | none => rfl
    | some m =>
      have h0 : m.fastCap = 0 := hi _ _ hfind m (List.mem_of_head? hq)
      simp [Kernel.fillMessage, h0]
  · rw [hs]; exact hd.updatePid Process.pop_pid
  · rw [hs, Scheduler.currentPid_updatePid Process.pop_pid]
  · rw [hs, Scheduler.has_updatePid Process.pop_pid]
  · rw [hs]; exact hi.updatePid Process.pop_pid fun pr _ m hm => .inl (List.mem_of_mem_tail hm)
  · rw [hs, queueOf_updatePid Process.pop_pid]
    split
    · next hp =>
      simp only [queueOf, hp, hfind, Option.elim_some, Process.pop]
      cases k.sched.cur.messageQueue with
      | nil => rfl
      | cons m ms =>
        by_cases hsend : m.sender = p.1
        · obtain rfl : p = (m.sender, k.sched.currentPid) := Prod.ext hsend.symm hp
          simp
        · have he : (m.sender, k.sched.currentPid) ≠ p := fun he => hsend (by rw [← he])
          simp [hsend, he]
    · next hp =>
      have he : ∀ m : Message, (m.sender, k.sched.currentPid) ≠ p := fun m he => hp (by rw [← he])
      simp [he]

end ChodOs
