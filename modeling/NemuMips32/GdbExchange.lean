/-
  Two ends of a GDB connection, each of which alternates `gdb_send` and `gdb_recv`: a client
  with its requests, and `gdb_server_mainloop` or any other party that answers them. A move of
  the exchange is one step of one end, in any order: `send_packet`, the `fgetc` for an
  acknowledgement, or a `recv_packet`, which waits until its packet has arrived. The line may
  damage a packet, so that its checksum does not match.

  `exchange_refines`: in every run the two ends do what two parties do that hand each other
  whole messages. No message is lost, repeated or changed, and the exchange never gets stuck.
-/
import NemuMips32.GdbProto
import NemuMips32.Lib.StateExcept

namespace NemuMips32

open HexText RemoteSerial StateExcept

namespace GdbProto

variable {σ τ : Type}

/-! ## The ends -/

/-- Where an end is: before `send_packet`, before the `fgetc` for the acknowledgement, or in
    `recv_packet`. -/
inductive Phase where
  | sending (command : List Byte)
  | acking (command : List Byte)
  | receiving
  | stopped
  deriving DecidableEq

/-- What an end does with a packet: what it sends next, if anything. -/
abbrev Script (σ : Type) := σ → List Byte → Option (List Byte) × σ

structure Party (σ : Type) where
  phase : Phase
  state : σ
  /-- What the other end has written, and this one has not read. -/
  inbox : List Byte
  /-- What `gdb_recv` has returned. -/
  got : List (List Byte)

def Party.hear (p : Party σ) (bytes : List Byte) : Party σ := { p with inbox := p.inbox ++ bytes }

/-- `gdb_recv` returns. -/
def Party.take (script : Script σ) (p : Party σ) (data rest : List Byte) : Party σ where
  phase := (script p.state data).1.elim .stopped .sending
  state := (script p.state data).2
  inbox := rest
  got := p.got ++ [data]

/-- One step of an end: what it writes, and where it is then. `fault` is what the line makes of
    the packet that is sent. -/
def Party.step (script : Script σ) (fault : Option (List Byte)) (p : Party σ) :
    Option (List Byte × Party σ) :=
  match p.phase with
  | .sending command => some (fault.getD (sendPacket command), { p with phase := .acking command })
  | .acking command =>
    match p.inbox with
    | [] => none
    | c :: cs =>
      let acked := c == ascii '+'
      some ([], { p with
        inbox := cs, phase := if acked then .receiving else .sending command })
  | .receiving =>
    match recvPacket p.inbox with
    | .reply data acked rest =>
      some ([if acked then ascii '+' else ascii '-'],
        if acked then p.take script data rest else { p with inbox := rest })
    | _ => none
  | .stopped => none

/-! ## The exchange -/

structure Exchange (σ τ : Type) where
  client : Party σ
  server : Party τ

inductive Side where
  | client
  | server

/-- A move: an end, and the fault of the line if it sends a packet. -/
abbrev Move := Side × Option (List Byte)

/-- One step of the chosen end; `none` if it has to wait. -/
def Exchange.step (ask : Script σ) (answer : Script τ) (x : Exchange σ τ) (mv : Move) :
    Option (Exchange σ τ) :=
  match mv.1 with
  | .client => (x.client.step ask mv.2).map fun y => ⟨y.2, x.server.hear y.1⟩
  | .server => (x.server.step answer mv.2).map fun y => ⟨x.client.hear y.1, y.2⟩

/-- The client begins with a request. In front of it the server may find noise, such as the `+`
    that `gdb_begin` writes. -/
def Exchange.start (c : σ) (s : τ) (request noise : List Byte) : Exchange σ τ where
  client := ⟨.sending request, c, [], []⟩
  server := ⟨.receiving, s, noise, []⟩

/-- A packet that arrives damaged: it is still framed, but its checksum does not match. -/
def Damaged (t : List Byte) : Prop :=
  ∃ body m l, t = ascii '$' :: body ++ [ascii '#', m, l] ∧ Inside body ∧
    sumMatches (checksum body) [m, l] = false

/-! ## What it is for -/

inductive Turn where
  | toServer (m : List Byte)
  | toClient (m : List Byte)
  | ended

/-- Two parties that hand each other whole messages. -/
structure Dialog (σ τ : Type) where
  client : σ
  server : τ
  atClient : List (List Byte)
  atServer : List (List Byte)
  turn : Turn

def Dialog.start (c : σ) (s : τ) (request : List Byte) : Dialog σ τ :=
  ⟨c, s, [], [], .toServer request⟩

/-- The message on its way arrives, and is answered. -/
def Dialog.deliver (ask : Script σ) (answer : Script τ) (d : Dialog σ τ) : Dialog σ τ :=
  match d.turn with
  | .toServer m =>
    { d with
      server := (answer d.server m).2
      atServer := d.atServer ++ [m]
      turn := (answer d.server m).1.elim .ended .toClient }
  | .toClient m =>
    { d with
      client := (ask d.client m).2
      atClient := d.atClient ++ [m]
      turn := (ask d.client m).1.elim .ended .toServer }
  | .ended => d

/-- The dialog after `n` messages. -/
def Dialog.after (ask : Script σ) (answer : Script τ) (d : Dialog σ τ) : Nat → Dialog σ τ
  | 0 => d
  | n + 1 => (d.after ask answer n).deliver ask answer

/-! ## A message on its way -/

/-- `b` is about to receive, with `text` to read, perhaps after an acknowledgement. -/
def Hears (b : Party τ) (text : List Byte) : Prop :=
  (b.phase = .receiving ∧ b.inbox = text) ∨
    ∃ command, b.phase = .acking command ∧ b.inbox = ascii '+' :: text

/-- Moves that `b` needs before it receives. -/
def Party.late (b : Party τ) : Nat := if b.phase = .receiving then 0 else 1

/-- The message `m` is on its way from `a` to `b`. Without a fault it arrives within `n` moves. -/
inductive OnWay (m : List Byte) : Nat → Party σ → Party τ → Prop where
  | ready {a b pre} (ha : a.phase = .sending m) (hi : a.inbox = []) (hb : Hears b pre)
      (hp : Quiet pre) : OnWay m (2 + b.late) a b
  | sent {a b pre} (ha : a.phase = .acking m) (hi : a.inbox = [])
      (hb : Hears b (pre ++ sendPacket m)) (hp : Quiet pre) : OnWay m (1 + b.late) a b
  | damaged {a b pre t} (ha : a.phase = .acking m) (hi : a.inbox = []) (hb : Hears b (pre ++ t))
      (hp : Quiet pre) (ht : Damaged t) : OnWay m (4 + b.late) a b
  | nacked {a b} (ha : a.phase = .acking m) (hi : a.inbox = [ascii '-']) (hb : Hears b []) :
      OnWay m (3 + b.late) a b

/-- Nothing is on its way, and `b` has stopped. -/
def Over (a : Party σ) (b : Party τ) : Prop := b.phase = .stopped ∧ Hears a []

theorem OnWay.le {m : List Byte} {n : Nat} {a : Party σ} {b : Party τ} (h : OnWay m n a b) :
    n ≤ 5 := by
  have hl : b.late ≤ 1 := by
    unfold Party.late
    split_ifs <;> omega
  cases h <;> omega

/-! ## What is read -/

theorem hash_mem_dropWhile {pre cs : List Byte} (h : ascii '#' ∈ cs) :
    ascii '#' ∈ (pre ++ ascii '$' :: cs).dropWhile (· != ascii '$') := by
  by_cases hd : ascii '$' ∈ pre
  · obtain ⟨noise, junk, rfl, hn⟩ := List.eq_append_cons_of_mem hd
    rw [List.append_assoc, dropWhile_of_not_mem hn, List.cons_append, List.dropWhile_cons,
      if_neg (by decide)]
    simp [h]
  · rw [dropWhile_of_not_mem hd, List.dropWhile_cons, if_neg (by decide)]
    exact List.mem_cons_of_mem _ h

/-- In front of a packet there is nothing to receive. -/
theorem recvPacket_quiet {pre : List Byte} (h : Quiet pre) : recvPacket pre = .closed := by
  rcases packet_or_closed pre with ⟨p, body, rest, hp⟩ | hc
  · refine absurd ?_ h
    have hin := hp.input
    rw [List.append_assoc, List.cons_append] at hin
    rw [hin]
    exact hash_mem_dropWhile (List.mem_append_right _ List.mem_cons_self)
  · exact hc

theorem recvPacket_damaged {pre t : List Byte} (hp : Quiet pre) (ht : Damaged t) :
    ∃ data, recvPacket (pre ++ t) = .reply data false [] := by
  obtain ⟨body, m, l, rfl, hin, hs⟩ := ht
  have hpk : Packet (pre ++ (ascii '$' :: body ++ [ascii '#', m, l])) pre body [m, l] :=
    ⟨by rw [List.append_assoc], hp, hin⟩
  exact ⟨_, by rw [recvPacket_packet hpk, hs]; rfl⟩

theorem quiet_nil : Quiet [] := List.not_mem_nil

/-! ## One step of each end -/

section Steps

variable {script : Script τ} {fault : Option (List Byte)} {m bytes text : List Byte} {n : Nat}
  {a a' : Party σ} {b b' : Party τ}

theorem hear_nil (a : Party σ) : a.hear [] = a := by
  unfold Party.hear
  rw [List.append_nil]

theorem hears_hear (h : Hears b text) (bytes : List Byte) :
    Hears (b.hear bytes) (text ++ bytes) := by
  rcases h with ⟨hp, hi⟩ | ⟨command, hp, hi⟩
  · exact .inl ⟨hp, by rw [Party.hear, hi]⟩
  · exact .inr ⟨command, hp, by rw [Party.hear, hi]; rfl⟩

theorem late_hear (b : Party τ) (bytes : List Byte) : (b.hear bytes).late = b.late := rfl

/-- An end that waits for an acknowledgement in front of the text reads it. -/
theorem hears_step (script : Script τ) (fault : Option (List Byte)) (h : Hears b text) :
    (b.phase = .receiving ∧ b.inbox = text ∧ b.late = 0) ∨
      ∃ b', b.step script fault = some ([], b') ∧ Hears b' text ∧ b'.late < b.late ∧
        b'.state = b.state ∧ b'.got = b.got := by
  rcases h with ⟨hp, hi⟩ | ⟨command, hp, hi⟩
  · exact .inl ⟨hp, hi, if_pos hp⟩
  · right
    have hl : b.late = 1 := by
      unfold Party.late
      rw [hp, if_neg (by rintro ⟨⟩)]
    refine ⟨{ b with inbox := text, phase := .receiving }, ?_, .inl ⟨rfl, rfl⟩, ?_, rfl, rfl⟩
    · unfold Party.step
      simp only [hp, hi, beq_self_eq_true, if_true]
    · rw [hl, Party.late, if_pos rfl]
      exact Nat.zero_lt_one

/-- The end that has a message to send, or waits for its acknowledgement. -/
theorem OnWay.sender_step {ask : Script σ} (h : OnWay m n a b)
    (hf : ∀ t, fault = some t → Damaged t) (hs : a.step ask fault = some (bytes, a')) :
    ∃ n', OnWay m n' a' (b.hear bytes) ∧ (fault = none → n' < n) ∧ a'.state = a.state ∧
      a'.got = a.got := by
  unfold Party.step at hs
  cases h with
  | @ready _ _ pre ha hi hb hp =>
    simp only [ha, Option.some.injEq, Prod.mk.injEq] at hs
    obtain ⟨rfl, rfl⟩ := hs
    have hb' := hears_hear hb (fault.getD (sendPacket m))
    cases fault with
    | none => exact ⟨_, .sent rfl hi hb' hp, fun _ => by rw [late_hear]; omega, rfl, rfl⟩
    | some t =>
      have hne : some t ≠ none := Option.some_ne_none t
      exact ⟨_, .damaged rfl hi hb' hp (hf t rfl), fun h => absurd h hne, rfl, rfl⟩
  | sent ha hi hb hp => simp only [ha, hi, reduceCtorEq] at hs
  | damaged ha hi hb hp ht => simp only [ha, hi, reduceCtorEq] at hs
  | nacked ha hi hb =>
    have hne : (ascii '-' == ascii '+') = false := by decide
    simp only [ha, hi, hne, Bool.false_eq_true, if_false, Option.some.injEq, Prod.mk.injEq] at hs
    obtain ⟨rfl, rfl⟩ := hs
    exact ⟨_, .ready rfl rfl (hears_hear hb []) quiet_nil, fun _ => by rw [late_hear]; omega, rfl,
      rfl⟩

/-- `a` has been told that its message arrived, and the answer `o` is on its way, if any. -/
def Turned (o : Option (List Byte)) (a : Party σ) (b : Party τ) : Prop :=
  (∀ r, o = some r → ∃ n, OnWay r n b a) ∧ (o = none → Over a b)

/-- The end that receives. -/
theorem OnWay.receiver_step (h : OnWay m n a b) (hm : ∀ c ∈ m, RemoteSerial.plain c = true)
    (hs : b.step script fault = some (bytes, b')) :
    (∃ n' < n, OnWay m n' (a.hear bytes) b' ∧ b'.state = b.state ∧ b'.got = b.got) ∨
      (Turned (script b.state m).1 (a.hear bytes) b' ∧ b'.state = (script b.state m).2 ∧
        b'.got = b.got ++ [m]) := by
  -- reading an acknowledgement, with the rest as it is
  have hack : ∀ {text : List Byte}, Hears b text → ¬ b.phase = .receiving →
      bytes = [] ∧ Hears b' text ∧ b'.late < b.late ∧ b'.state = b.state ∧ b'.got = b.got := by
    intro text hb hr
    rcases hears_step script fault hb with ⟨hp, -⟩ | ⟨b'', hb'', hrest⟩
    · exact absurd hp hr
    · rw [hs, Option.some.injEq, Prod.mk.injEq] at hb''
      obtain ⟨rfl, rfl⟩ := hb''
      exact ⟨rfl, hrest⟩
  have hread : ∀ {text : List Byte}, Hears b text → b.phase = .receiving →
      b.inbox = text ∧ b.late = 0 := by
    intro text hb hr
    rcases hb with ⟨-, hi⟩ | ⟨command, hc, -⟩
    · exact ⟨hi, if_pos hr⟩
    · rw [hr] at hc
      cases hc
  by_cases hr : b.phase = .receiving
  · unfold Party.step at hs
    simp only [hr] at hs
    cases h with
    | ready ha hi hb hp =>
      rw [(hread hb hr).1, recvPacket_quiet hp] at hs
      cases hs
    | @sent _ _ pre ha hi hb hp =>
      have hrecv := recvPacket_sendPacket hp hm []
      rw [List.append_nil] at hrecv
      rw [(hread hb hr).1, hrecv] at hs
      simp only [if_true, Option.some.injEq, Prod.mk.injEq] at hs
      obtain ⟨rfl, rfl⟩ := hs
      right
      have ha' : Hears (a.hear [ascii '+']) [] := .inr ⟨m, ha, by rw [Party.hear, hi]; rfl⟩
      refine ⟨⟨fun r hr => ⟨_, .ready ?_ rfl ha' quiet_nil⟩, fun ho => ⟨?_, ha'⟩⟩, rfl, rfl⟩
      · rw [Party.take, hr]
        rfl
      · rw [Party.take, ho]
        rfl
    | damaged ha hi hb hp ht =>
      obtain ⟨data, hrecv⟩ := recvPacket_damaged hp ht
      rw [(hread hb hr).1, hrecv] at hs
      simp only [Bool.false_eq_true, if_false, Option.some.injEq, Prod.mk.injEq] at hs
      obtain ⟨rfl, rfl⟩ := hs
      refine .inl ⟨_, ?_, .nacked ha (by rw [Party.hear, hi]; rfl) (.inl ⟨rfl, rfl⟩), rfl, rfl⟩
      simp only [Party.late, if_true]
      omega
    | nacked ha hi hb =>
      rw [(hread hb hr).1, recvPacket_quiet quiet_nil] at hs
      cases hs
  · left
    cases h with
    | ready ha hi hb hp =>
      obtain ⟨rfl, hb', hl, hst, hg⟩ := hack hb hr
      rw [hear_nil]
      exact ⟨_, by omega, .ready ha hi hb' hp, hst, hg⟩
    | sent ha hi hb hp =>
      obtain ⟨rfl, hb', hl, hst, hg⟩ := hack hb hr
      rw [hear_nil]
      exact ⟨_, by omega, .sent ha hi hb' hp, hst, hg⟩
    | damaged ha hi hb hp ht =>
      obtain ⟨rfl, hb', hl, hst, hg⟩ := hack hb hr
      rw [hear_nil]
      exact ⟨_, by omega, .damaged ha hi hb' hp ht, hst, hg⟩
    | nacked ha hi hb =>
      obtain ⟨rfl, hb', hl, hst, hg⟩ := hack hb hr
      rw [hear_nil]
      exact ⟨_, by omega, .nacked ha hi hb', hst, hg⟩

end Steps

/-! ## The exchange follows the dialog -/

section Run

variable {ask : Script σ} {answer : Script τ} {n : Nat} {x y : Exchange σ τ} {d : Dialog σ τ}

/-- The ends have received what the parties of the dialog have, and are in their states. -/
structure Agrees (x : Exchange σ τ) (d : Dialog σ τ) : Prop where
  client : x.client.state = d.client
  server : x.server.state = d.server
  atClient : x.client.got = d.atClient
  atServer : x.server.got = d.atServer

/-- The connection carries what the dialog has on its way. -/
def Turn.Carried (n : Nat) (x : Exchange σ τ) : Turn → Prop
  | .toServer m => (∀ c ∈ m, RemoteSerial.plain c = true) ∧ OnWay m n x.client x.server
  | .toClient m => (∀ c ∈ m, RemoteSerial.plain c = true) ∧ OnWay m n x.server x.client
  | .ended => Over x.client x.server ∨ Over x.server x.client

structure Follows (n : Nat) (x : Exchange σ τ) (d : Dialog σ τ) : Prop where
  agrees : Agrees x d
  carried : d.turn.Carried n x

/-- The script's messages need no escapes. -/
def Sendable (script : Script σ) : Prop :=
  ∀ s data m, (script s data).1 = some m → ∀ c ∈ m, RemoteSerial.plain c = true

/-- When nothing is on its way, the end that stopped stays and the other one does not write. -/
theorem over_step {script : Script σ} {fault : Option (List Byte)} {a a' : Party σ} {b : Party τ}
    {bytes : List Byte} (h : Over a b) (hs : a.step script fault = some (bytes, a')) :
    bytes = [] ∧ Over a' b ∧ a'.state = a.state ∧ a'.got = a.got := by
  rcases hears_step script fault h.2 with ⟨hp, hi, -⟩ | ⟨a'', ha'', hh, -, hst, hg⟩
  · unfold Party.step at hs
    simp only [hp, hi, recvPacket_quiet quiet_nil] at hs
    cases hs
  · rw [hs, Option.some.injEq, Prod.mk.injEq] at ha''
    obtain ⟨rfl, rfl⟩ := ha''
    exact ⟨rfl, ⟨h.1, hh⟩, hst, hg⟩

theorem stopped_step {script : Script σ} {fault : Option (List Byte)} {a : Party σ}
    (h : a.phase = .stopped) : a.step script fault = none := by
  unfold Party.step
  simp only [h]

/-! ### Both ends alike -/

def Side.swap : Side → Side
  | .client => .server
  | .server => .client

def Turn.swap : Turn → Turn
  | .toServer m => .toClient m
  | .toClient m => .toServer m
  | .ended => .ended

def Exchange.swap (x : Exchange σ τ) : Exchange τ σ := ⟨x.server, x.client⟩

def Dialog.swap (d : Dialog σ τ) : Dialog τ σ :=
  ⟨d.server, d.client, d.atServer, d.atClient, d.turn.swap⟩

theorem step_swap (x : Exchange σ τ) (mv : Move) :
    x.swap.step answer ask (mv.1.swap, mv.2) = (x.step ask answer mv).map Exchange.swap := by
  obtain ⟨who, fault⟩ := mv
  cases who <;> simp only [Exchange.step, Side.swap, Exchange.swap, Option.map_map] <;> rfl

theorem deliver_swap (d : Dialog σ τ) :
    d.swap.deliver answer ask = (d.deliver ask answer).swap := by
  unfold Dialog.deliver Dialog.swap
  cases hturn : d.turn with
  | toServer m =>
    simp only [Turn.swap]
    cases (answer d.server m).1 <;> rfl
  | toClient m =>
    simp only [Turn.swap]
    cases (ask d.client m).1 <;> rfl
  | ended => simp only [Turn.swap, hturn]

theorem follows_swap : Follows n x d ↔ Follows n x.swap d.swap := by
  have hcar : d.turn.Carried n x ↔ d.turn.swap.Carried n x.swap := by
    cases d.turn with
    | toServer m => rfl
    | toClient m => rfl
    | ended => exact or_comm
  constructor
  · rintro ⟨⟨h1, h2, h3, h4⟩, h⟩
    exact ⟨⟨h2, h1, h4, h3⟩, hcar.1 h⟩
  · rintro ⟨⟨h1, h2, h3, h4⟩, h⟩
    exact ⟨⟨h2, h1, h4, h3⟩, hcar.2 h⟩

/-! ### Moves -/

theorem client_step {fault : Option (List Byte)}
    (hs : x.step ask answer (.client, fault) = some y) :
    ∃ bytes, x.client.step ask fault = some (bytes, y.client) ∧
      y.server = x.server.hear bytes := by
  obtain ⟨⟨bytes, c⟩, hc, rfl⟩ := Option.map_eq_some_iff.1 hs
  exact ⟨bytes, hc, rfl⟩

theorem server_step {fault : Option (List Byte)}
    (hs : x.step ask answer (.server, fault) = some y) :
    ∃ bytes, x.server.step answer fault = some (bytes, y.server) ∧
      y.client = x.client.hear bytes := by
  obtain ⟨⟨bytes, c⟩, hc, rfl⟩ := Option.map_eq_some_iff.1 hs
  exact ⟨bytes, hc, rfl⟩

/-- What a move does: it leaves the dialog as it is and, without a fault, comes closer to the
    next message; or it delivers the message. -/
def Advances (ask : Script σ) (answer : Script τ) (n : Nat) (d : Dialog σ τ)
    (fault : Option (List Byte)) (y : Exchange σ τ) : Prop :=
  (∃ n', Follows n' y d ∧ (fault = none → d.turn ≠ .ended → n' < n)) ∨
    ∃ n', Follows n' y (d.deliver ask answer)

theorem advances_swap {fault : Option (List Byte)}
    (h : Advances answer ask n d.swap fault y.swap) : Advances ask answer n d fault y := by
  have hover : d.turn ≠ .ended → d.swap.turn ≠ .ended := by
    intro h
    unfold Dialog.swap
    cases hturn : d.turn with
    | toServer m => simp [Turn.swap]
    | toClient m => simp [Turn.swap]
    | ended => exact absurd hturn h
  rcases h with ⟨n', hfol, hlt⟩ | ⟨n', hfol⟩
  · exact .inl ⟨n', follows_swap.2 hfol, fun hf ho => hlt hf (hover ho)⟩
  · rw [deliver_swap] at hfol
    exact .inr ⟨n', follows_swap.2 hfol⟩

theorem advances_toServer {m : List Byte} (hans : Sendable answer) (h : Follows n x d)
    (hturn : d.turn = .toServer m) (mv : Move) (hf : ∀ t, mv.2 = some t → Damaged t)
    (hs : x.step ask answer mv = some y) : Advances ask answer n d mv.2 y := by
  obtain ⟨⟨hc, hsv, hgc, hgs⟩, hcar⟩ := h
  obtain ⟨who, fault⟩ := mv
  rw [hturn] at hcar
  obtain ⟨hm, hway⟩ := hcar
  cases who with
  | client =>
    obtain ⟨bytes, hstep, hother⟩ := client_step hs
    obtain ⟨n', hway', hlt, hst, hg⟩ := hway.sender_step hf hstep
    rw [← hother] at hway'
    refine .inl ⟨n', ⟨⟨hst.trans hc, ?_, hg.trans hgc, ?_⟩, ?_⟩, fun hf _ => hlt hf⟩
    · rw [hother, ← hsv]
      rfl
    · rw [hother, ← hgs]
      rfl
    · rw [hturn]
      exact ⟨hm, hway'⟩
  | server =>
    obtain ⟨bytes, hstep, hother⟩ := server_step hs
    rcases hway.receiver_step hm hstep with ⟨n', hlt, hway', hst, hg⟩ | ⟨ht, hst, hg⟩
    · rw [← hother] at hway'
      refine .inl ⟨n', ⟨⟨?_, hst.trans hsv, ?_, hg.trans hgs⟩, ?_⟩, fun _ _ => hlt⟩
      · rw [hother, ← hc]
        rfl
      · rw [hother, ← hgc]
        rfl
      · rw [hturn]
        exact ⟨hm, hway'⟩
    · rw [← hother, hsv] at ht
      have hd : d.deliver ask answer = { d with
          server := (answer d.server m).2
          atServer := d.atServer ++ [m]
          turn := (answer d.server m).1.elim .ended .toClient } := by
        unfold Dialog.deliver
        rw [hturn]
      have hagree : Agrees y (d.deliver ask answer) := by
        rw [hd]
        refine ⟨?_, ?_, ?_, ?_⟩
        · rw [hother]
          exact hc
        · rw [hst, hsv]
        · rw [hother]
          exact hgc
        · rw [hg, hgs]
      right
      cases ho : (answer d.server m).1 with
      | none =>
        refine ⟨0, hagree, ?_⟩
        rw [hd, ho]
        exact .inl (ht.2 ho)
      | some r =>
        obtain ⟨n', hway'⟩ := ht.1 r ho
        refine ⟨n', hagree, ?_⟩
        rw [hd, ho]
        exact ⟨hans _ _ r ho, hway'⟩

theorem advances_over (h : Follows n x d) (hturn : d.turn = .ended)
    (ho : Over x.client x.server) (mv : Move) (hs : x.step ask answer mv = some y) :
    Advances ask answer n d mv.2 y := by
  obtain ⟨⟨hc, hsv, hgc, hgs⟩, -⟩ := h
  obtain ⟨who, fault⟩ := mv
  cases who with
  | client =>
    obtain ⟨bytes, hstep, hother⟩ := client_step hs
    obtain ⟨rfl, ho', hst, hg⟩ := over_step ho hstep
    rw [hear_nil] at hother
    refine .inl ⟨n, ⟨⟨hst.trans hc, ?_, hg.trans hgc, ?_⟩, ?_⟩, fun _ h => absurd hturn h⟩
    · rw [hother, hsv]
    · rw [hother, hgs]
    · rw [hturn]
      refine .inl ?_
      rw [hother]
      exact ho'
  | server =>
    obtain ⟨bytes, hstep, -⟩ := server_step hs
    rw [stopped_step ho.1] at hstep
    cases hstep

theorem advances_of_step (hask : Sendable ask) (hans : Sendable answer) (h : Follows n x d)
    {mv : Move} (hf : ∀ t, mv.2 = some t → Damaged t) (hs : x.step ask answer mv = some y) :
    Advances ask answer n d mv.2 y := by
  have hs' : x.swap.step answer ask (mv.1.swap, mv.2) = some y.swap := by
    rw [step_swap, hs]
    rfl
  cases hturn : d.turn with
  | toServer m => exact advances_toServer hans h hturn mv hf hs
  | toClient m =>
    have hturn' : d.swap.turn = .toServer m := by
      rw [Dialog.swap, hturn]
      rfl
    exact advances_swap (advances_toServer hask (follows_swap.1 h) hturn' (mv.1.swap, mv.2) hf hs')
  | ended =>
    have hcar := h.carried
    rw [hturn] at hcar
    rcases hcar with ho | ho
    · exact advances_over h hturn ho mv hs
    · have hturn' : d.swap.turn = .ended := by
        rw [Dialog.swap, hturn]
        rfl
      exact advances_swap (advances_over (follows_swap.1 h) hturn' ho (mv.1.swap, mv.2) hs')

/-! ### Runs -/

/-- While a message is on its way, one of the two ends can move. -/
theorem OnWay.moves {ask : Script σ} {answer : Script τ} {m : List Byte} {a : Party σ}
    {b : Party τ} (h : OnWay m n a b) (hm : ∀ c ∈ m, RemoteSerial.plain c = true) :
    (∃ z, a.step ask none = some z) ∨ ∃ z, b.step answer none = some z := by
  have hread : ∀ {text data : List Byte} {ok : Bool}, Hears b text →
      recvPacket text = .reply data ok [] → ∃ z, b.step answer none = some z := by
    intro text data ok hb hr
    rcases hears_step answer none hb with ⟨hp, hi, -⟩ | ⟨b', hb', -⟩
    · unfold Party.step
      simp only [hp, hi, hr]
      exact ⟨_, rfl⟩
    · exact ⟨_, hb'⟩
  cases h with
  | ready ha hi hb hp =>
    left
    unfold Party.step
    simp only [ha]
    exact ⟨_, rfl⟩
  | sent ha hi hb hp =>
    have hrecv := recvPacket_sendPacket hp hm []
    rw [List.append_nil] at hrecv
    exact .inr (hread hb hrecv)
  | damaged ha hi hb hp ht =>
    obtain ⟨data, hrecv⟩ := recvPacket_damaged hp ht
    exact .inr (hread hb hrecv)
  | nacked ha hi hb =>
    left
    unfold Party.step
    simp only [ha, hi]
    exact ⟨_, rfl⟩

theorem follows_moves (h : Follows n x d) (hd : d.turn ≠ .ended) :
    ∃ who y, x.step ask answer (who, none) = some y := by
  have hclient : (∃ z, x.client.step ask none = some z) →
      ∃ who y, x.step ask answer (who, none) = some y := by
    rintro ⟨z, hz⟩
    exact ⟨.client, _, Option.map_eq_some_iff.2 ⟨z, hz, rfl⟩⟩
  have hserver : (∃ z, x.server.step answer none = some z) →
      ∃ who y, x.step ask answer (who, none) = some y := by
    rintro ⟨z, hz⟩
    exact ⟨.server, _, Option.map_eq_some_iff.2 ⟨z, hz, rfl⟩⟩
  have hcar := h.carried
  cases hturn : d.turn with
  | toServer m =>
    rw [hturn] at hcar
    exact (hcar.2.moves hcar.1).elim hclient hserver
  | toClient m =>
    rw [hturn] at hcar
    exact (hcar.2.moves hcar.1).elim hserver hclient
  | ended => exact absurd hturn hd

theorem follows_start {c : σ} {s : τ} {request noise : List Byte}
    (hr : ∀ b ∈ request, RemoteSerial.plain b = true) (hn : Quiet noise) :
    ∃ n, Follows n (.start c s request noise) (.start c s request) :=
  ⟨_, ⟨rfl, rfl, rfl, rfl⟩, hr, .ready rfl rfl (.inl ⟨rfl, rfl⟩) hn⟩

theorem follows_trace (hask : Sendable ask) (hans : Sendable answer) {d : Dialog σ τ} {k : Nat}
    (h : Follows n x (d.after ask answer k)) {moves : List Move}
    (hf : ∀ mv ∈ moves, ∀ t, mv.2 = some t → Damaged t) :
    ∀ y ∈ trace (Exchange.step ask answer) x moves,
      ∃ n' k', Follows n' y (d.after ask answer k') := by
  induction moves generalizing n k x with
  | nil => intro y hy; cases hy
  | cons mv moves ih =>
    intro y hy
    rw [trace] at hy
    cases hs : x.step ask answer mv with
    | none => rw [hs] at hy; cases hy
    | some x' =>
      rw [hs] at hy
      have hrest := fun mv' h => hf mv' (List.mem_cons_of_mem mv h)
      have hadv := advances_of_step hask hans h (hf mv List.mem_cons_self) hs
      obtain ⟨n', k', hfol⟩ : ∃ n' k', Follows n' x' (d.after ask answer k') := by
        rcases hadv with ⟨n', hfol, -⟩ | ⟨n', hfol⟩
        · exact ⟨n', k, hfol⟩
        · exact ⟨n', k + 1, hfol⟩
      rcases List.mem_cons.1 hy with rfl | hy
      · exact ⟨n', k', hfol⟩
      · exact ih hfol hrest y hy

theorem Follows.pos (h : Follows n x d) (hd : d.turn ≠ .ended) : 0 < n := by
  have hpos : ∀ {σ τ : Type} {m : List Byte} {a : Party σ} {b : Party τ},
      OnWay m n a b → 0 < n := by
    intro σ τ m a b h
    cases h <;> omega
  have hcar := h.carried
  cases hturn : d.turn with
  | toServer m =>
    rw [hturn] at hcar
    exact hpos hcar.2
  | toClient m =>
    rw [hturn] at hcar
    exact hpos hcar.2
  | ended => exact absurd hturn hd

theorem Follows.le (h : Follows n x d) (hd : d.turn ≠ .ended) : n ≤ 5 := by
  have hcar := h.carried
  cases hturn : d.turn with
  | toServer m =>
    rw [hturn] at hcar
    exact hcar.2.le
  | toClient m =>
    rw [hturn] at hcar
    exact hcar.2.le
  | ended => exact absurd hturn hd

/-- Moves of the two ends while the line does no harm. -/
def faultless (more : List Side) : List Move := more.map fun who => (who, none)

theorem follows_delivers (hask : Sendable ask) (hans : Sendable answer) (h : Follows n x d)
    (hd : d.turn ≠ .ended) {more : List Side} (hn : n ≤ more.length)
    (hall : (trace (Exchange.step ask answer) x (faultless more)).length = more.length) :
    ∃ y ∈ trace (Exchange.step ask answer) x (faultless more),
      ∃ n', Follows n' y (d.deliver ask answer) := by
  induction more generalizing n x with
  | nil =>
    have hpos := h.pos hd
    rw [List.length_nil] at hn
    omega
  | cons who more ih =>
    rw [faultless, List.map_cons, trace] at hall ⊢
    cases hs : x.step ask answer (who, none) with
    | none =>
      rw [hs] at hall
      cases hall
    | some x' =>
      rw [hs, List.length_cons, List.length_cons] at hall
      rw [List.length_cons] at hn
      rcases advances_of_step hask hans h (fun t ht => by cases ht) hs with
        ⟨n', hfol, hlt⟩ | ⟨n', hfol⟩
      · have hlt := hlt rfl hd
        obtain ⟨y, hy, hfol'⟩ := ih hfol (by omega) (Nat.succ.inj hall)
        exact ⟨y, List.mem_cons_of_mem _ hy, hfol'⟩
      · exact ⟨x', List.mem_cons_self, n', hfol⟩

end Run

/-- In every run, whatever the line damages, the two ends are where the dialog is after some
    number of messages. Until it is over, one of them can move, and five moves without a fault
    deliver the next message. -/
theorem exchange_refines {ask : Script σ} {answer : Script τ} (hask : Sendable ask)
    (hans : Sendable answer) (c : σ) (s : τ) {request noise : List Byte}
    (hr : ∀ b ∈ request, RemoteSerial.plain b = true) (hn : Quiet noise) {moves : List Move}
    (hf : ∀ mv ∈ moves, ∀ t, mv.2 = some t → Damaged t) :
    ∀ x ∈ trace (Exchange.step ask answer) (.start c s request noise) moves,
      ∃ k, Agrees x ((Dialog.start c s request).after ask answer k) ∧
        (((Dialog.start c s request).after ask answer k).turn ≠ .ended →
          (∃ who y, x.step ask answer (who, none) = some y) ∧
          ∀ more : List Side, 5 ≤ more.length →
            (trace (Exchange.step ask answer) x (faultless more)).length = more.length →
            ∃ y ∈ trace (Exchange.step ask answer) x (faultless more),
              Agrees y ((Dialog.start c s request).after ask answer (k + 1))) := by
  intro x hx
  obtain ⟨n, hstart⟩ : ∃ n, Follows n (.start c s request noise)
      ((Dialog.start c s request).after ask answer 0) := follows_start hr hn
  obtain ⟨n', k, hfol⟩ := follows_trace hask hans hstart hf x hx
  refine ⟨k, hfol.agrees, fun hd => ⟨follows_moves hfol hd, fun more hlen hall => ?_⟩⟩
  have hle := hfol.le hd
  obtain ⟨y, hy, n'', hfol'⟩ := follows_delivers hask hans hfol hd (by omega) hall
  exact ⟨y, hy, hfol'.agrees⟩

/-! ## The stub -/

/-- A payload that `send_packet` may send. -/
abbrev Message := { m : List Byte // ∀ c ∈ m, RemoteSerial.plain c = true }

/-- A client with a list of requests. -/
def requests : Script (List Message) := fun todo _ =>
  match todo with
  | [] => (none, [])
  | r :: todo => (some r.1, todo)

/-- The body of `gdb_server_mainloop`: a request without a handler, or with a handler that
    returns NULL, gets the empty reply. -/
def mainloop (handlers : Byte → Option (τ → List Byte → Option (List Byte) × τ)) : Script τ :=
  fun s data =>
    match handlers (data.headD 0) with
    | none => (some [], s)
    | some handler => (some ((handler s data.tail).1.getD []), (handler s data.tail).2)

theorem sendable_requests : Sendable requests := by
  intro todo data m h
  cases todo with
  | nil => cases h
  | cons r todo => exact Option.some.inj h ▸ r.2

theorem sendable_mainloop {handlers : Byte → Option (τ → List Byte → Option (List Byte) × τ)}
    (h : ∀ kind handler, handlers kind = some handler → ∀ s args r, (handler s args).1 = some r →
      ∀ c ∈ r, RemoteSerial.plain c = true) : Sendable (mainloop handlers) := by
  intro s data m hm
  unfold mainloop at hm
  cases hh : handlers (data.headD 0) with
  | none =>
    rw [hh] at hm
    obtain rfl := Option.some.inj hm
    intro c hc
    cases hc
  | some handler =>
    rw [hh] at hm
    obtain rfl := Option.some.inj hm
    cases hr : (handler s data.tail).1 with
    | none =>
      intro c hc
      cases hc
    | some r => exact h _ handler hh s data.tail r hr

/-- The reply of `gdb_question`. -/
def stopReply : List Byte :=
  ['T', '0', '5', 't', 'h', 'r', 'e', 'a', 'd', ':', '0', '1', ';'].map ascii

/-- The entries of `handlers` that answer the same to every request. -/
def constantHandlers (kind : Byte) : Option (Unit → List Byte → Option (List Byte) × Unit) :=
  if kind = ascii '?' then some fun _ _ => (some stopReply, ())
  else if kind = ascii 'H' ∨ kind = ascii 'D' then some fun _ _ => (some [ascii 'O', ascii 'K'], ())
  else if kind ∈ ['c', 'G', 'i', 'P', 'r', 'R', 's'].map ascii then some fun _ _ => (none, ())
  else none

theorem plain_constantHandlers (kind : Byte)
    (handler : Unit → List Byte → Option (List Byte) × Unit)
    (h : constantHandlers kind = some handler) (s : Unit) (args r : List Byte)
    (hr : (handler s args).1 = some r) : ∀ c ∈ r, RemoteSerial.plain c = true := by
  unfold constantHandlers at h
  split_ifs at h
  · obtain rfl := Option.some.inj h
    obtain rfl := Option.some.inj hr
    decide
  · obtain rfl := Option.some.inj h
    obtain rfl := Option.some.inj hr
    decide
  · obtain rfl := Option.some.inj h
    cases hr

/-- `?` sent twice because of a flipped bit, then `Hg0`. -/
def demoMoves : List Move :=
  (.client, some (['$', '/', '#', '3', 'F'].map ascii)) ::
    faultless [.server, .client, .client, .server, .server, .client, .client, .client, .server,
      .server, .server, .client, .client]

def demoStart : Exchange (List Message) Unit :=
  .start [⟨['H', 'g', '0'].map ascii, by decide⟩] () [ascii '?'] [ascii '+']

theorem exchange_refines_demo :
    (trace (Exchange.step requests (mainloop constantHandlers)) demoStart demoMoves).length =
        demoMoves.length ∧
      ∀ x ∈ trace (Exchange.step requests (mainloop constantHandlers)) demoStart demoMoves,
        ∃ k, Agrees x ((Dialog.start [⟨['H', 'g', '0'].map ascii, by decide⟩] () [ascii '?']).after
          requests (mainloop constantHandlers) k) := by
  refine ⟨by decide +kernel, fun x hx => ?_⟩
  have hf : ∀ mv ∈ demoMoves, ∀ t, mv.2 = some t → Damaged t := by
    intro mv hmv t ht
    rcases List.mem_cons.1 hmv with rfl | hmv
    · obtain rfl := Option.some.inj ht
      exact ⟨[ascii '/'], ascii '3', ascii 'F', rfl, by unfold Inside; decide, by decide⟩
    · obtain ⟨who, -, rfl⟩ := List.mem_map.1 hmv
      cases ht
  obtain ⟨k, hk, -⟩ := exchange_refines sendable_requests
    (sendable_mainloop plain_constantHandlers) [⟨['H', 'g', '0'].map ascii, by decide⟩] ()
    (by decide) (by unfold Quiet; decide) hf x hx
  exact ⟨k, hk⟩

end GdbProto

end NemuMips32
