import GossipLedger.Proofs.Rumor.Answers
import GossipLedger.Proofs.Swarm
import GossipLedger.Proofs.Wire.Size
import Mathlib.Data.List.Induction

/-!
# Which rumors reach the peers

A hub stores a rumor for its number alone, whatever is in it.  A rumor is sent in one packet,
and a packet that is larger than a datagram is not sent.  So a text that is too long is
stored by its own node and by no other one.  Nor is any later text of that node, since the
others wait for the number that they lack.

## Main definitions

* `Rumor.Travels` — there is a datagram of a rumor.
* `Hub.after`, `Hub.taken` — a hub after a sequence of commands, and the rumors that it
  stored meanwhile.
* `Hub.Numbered` — own rumors are numbered on from the last one that is stored.
* `Hub.requests` — clients ask for texts.
* `Swarm.Carried` — the swarms in which a rumor comes only in a datagram.

## Main results

* `Rumor.travels_iff`, `Rumor.travels_of_le`, `Rumor.not_travels_of_lt` — how long the texts
  of a rumor may be.
* `Hub.stored_travels_iff` — **when there is a datagram of every stored rumor**, and what
  becomes of the later ones where there is none.
* `Hub.log_after_requests` — all that clients ask for is stored in its order.
* `Hub.unheard_after_flood` — a text that is heard by nobody, and the one after it.
* `Swarm.Carried.log_prefix_takeWhile` — **no other node gets past the first rumor of a node
  that is too large.**
-/

namespace GossipLedger

open Json

/-! ### Rumors in datagrams -/

/-- There is a datagram of a rumor. -/
def Rumor.Travels (r : Rumor) : Prop := ∃ bytes, (Packet.rumor r).encode = .ok bytes

/-- The texts of a rumor decide whether there is a datagram of it. -/
theorem Rumor.travels_iff (r : Rumor) :
    r.Travels ↔
      45 + textSize r.origin + decimals r.sequence.toNat + textSize r.text ≤ maxPacketSize := by
  rw [Rumor.Travels, Packet.encode_eq_ok_iff, length_rumor]

instance decidableTravels (r : Rumor) : Decidable r.Travels := decidable_of_iff' _ r.travels_iff

/-- Short texts always travel. -/
theorem Rumor.travels_of_le {r : Rumor} (h : textSize r.origin + textSize r.text ≤ 65452) :
    r.Travels := by
  have hdigits := decimals_word_le r.sequence
  rw [travels_iff, maxPacketSize]
  omega

/-- Long texts never travel. -/
theorem Rumor.not_travels_of_lt {r : Rumor} (h : 65461 < textSize r.origin + textSize r.text) :
    ¬r.Travels := by
  have hdigits := decimals_pos r.sequence.toNat
  rw [travels_iff, maxPacketSize]
  omega

namespace Hub

variable {h h' : Hub} {r : Rumor} {o : String}

/-! ### What is stored -/

/-- The rumors that a command adds to the store: at most one. -/
def stores (h : Hub) (c : HubCommand) : List Rumor :=
  (h.offered? c).toList.filter fun r => (h.rumors.append? r).isSome

/-- A hub after a sequence of commands, with all that its mongers do in between. -/
def after (h : Hub) : List (Moment × HubCommand) → Hub
  | [] => h
  | (w, c) :: cs => (h.handle w c).1.after cs

/-- The rumors that are stored during a sequence of commands, oldest first. -/
def taken (h : Hub) : List (Moment × HubCommand) → List Rumor
  | [] => []
  | (w, c) :: cs => h.stores c ++ (h.handle w c).1.taken cs

@[simp] theorem handle_name (w : Moment) (h : Hub) (c : HubCommand) :
    (h.handle w c).1.name = h.name := (h.handles_obey w c).name

/-- Mongers leave the store alone. -/
theorem handle_rumors (w : Moment) (h : Hub) (c : HubCommand) :
    (h.handle w c).1.rumors = ((h.offered? c).bind h.rumors.append?).getD h.rumors :=
  h.obey_rumors w c

/-- A command either leaves the store as it is, or the rumor that it asks to store is
appended. -/
theorem handle_rumors_cases (w : Moment) (h : Hub) (c : HubCommand) :
    ((h.handle w c).1.rumors = h.rumors ∧ h.stores c = []) ∨
      ∃ r, h.offered? c = some r ∧ h.rumors.append? r = some (h.handle w c).1.rumors ∧
        h.stores c = [r] := by
  rw [handle_rumors, stores]
  cases h.offered? c with
  | none => exact Or.inl ⟨rfl, rfl⟩
  | some r =>
    rw [Option.bind_some, Option.toList_some, List.filter_singleton]
    cases happend : h.rumors.append? r with
    | none => exact Or.inl ⟨rfl, rfl⟩
    | some rumors => exact Or.inr ⟨r, rfl, happend, rfl⟩

theorem mem_log_handle_iff {w : Moment} {c : HubCommand} :
    r ∈ (h.handle w c).1.rumors.log o ↔
      r ∈ h.rumors.log o ∨ (r ∈ h.stores c ∧ r.origin = o) := by
  rcases h.handle_rumors_cases w c with ⟨hsame, hnone⟩ | ⟨x, -, happend, hone⟩
  · rw [hsame, hnone]
    simp
  · rw [MessageStore.log_append? happend, hone, List.mem_singleton]
    show r ∈ (if x.origin = o then _ else _) ↔ _
    split
    next ho =>
      rw [List.mem_append, List.mem_singleton]
      refine or_congr_right ⟨fun hr => ⟨hr, hr ▸ ho⟩, And.left⟩
    next ho =>
      refine (or_iff_left ?_).symm
      rintro ⟨rfl, horigin⟩
      exact ho horigin

/-- **What is stored after a sequence of commands** was stored before or meanwhile. -/
theorem mem_log_after_iff {cs : List (Moment × HubCommand)} :
    r ∈ (h.after cs).rumors.log o ↔ r ∈ h.rumors.log o ∨ (r ∈ h.taken cs ∧ r.origin = o) := by
  induction cs generalizing h with
  | nil => simp [after, taken]
  | cons c cs ih =>
    obtain ⟨w, c⟩ := c
    rw [after, taken, ih, mem_log_handle_iff, List.mem_append, or_and_right, or_assoc]

theorem after_name (cs : List (Moment × HubCommand)) : (h.after cs).name = h.name := by
  induction cs generalizing h with
  | nil => rfl
  | cons c cs ih => rw [after, ih, handle_name]

theorem built_handle (hbuilt : h.rumors.Built) (w : Moment) (c : HubCommand) :
    (h.handle w c).1.rumors.Built := by
  rcases h.handle_rumors_cases w c with ⟨hsame, -⟩ | ⟨x, -, happend, -⟩
  · rw [hsame]
    exact hbuilt
  · exact hbuilt.append happend

/-! ### How own rumors are numbered -/

/-- **Own rumors are numbered on from the last one that is stored.** -/
def Numbered (h : Hub) : Prop := h.rumorCounter = h.rumors.last h.name

/-- The next own rumor is the next one of its origin. -/
theorem Numbered.append?_own (hn : h.Numbered) (text : String) :
    ∃ rumors, h.rumors.append? (⟨h.name, h.rumorCounter + 1, text⟩ : Rumor) = some rumors :=
  ⟨_, MessageStore.append?_eq_some_iff.2 ⟨congrArg (· + 1) hn, rfl⟩⟩

theorem Numbered.onRumorRequest (hn : h.Numbered) (text : String) :
    (h.onRumorRequest text).Numbered := by
  have hhandles : Handles h none (h.onRumorRequest text) [] := h.handles_onRumorRequest text
  obtain ⟨rumors, happend⟩ := hn.append?_own text
  unfold Numbered
  rw [onRumorRequest_rumorCounter, onRumorRequest_rumors, hhandles.name, happend,
    Option.getD_some, MessageStore.last_append? happend]
  exact (if_pos rfl).symm

/-- A rumor of a peer that comes under the own name is counted. -/
theorem Numbered.onPacket_rumor (hn : h.Numbered) (w : Moment) (sender : PeerAddress) (r : Rumor) :
    (h.onPacket w sender (.rumor r)).1.Numbered := by
  have hname := (h.handles_onPacket w sender (.rumor r)).name
  unfold Numbered
  rw [hname]
  rcases h.onPacket_rumor_cases w sender r with
    ⟨-, hsame, hcounter⟩ | ⟨rumors, hnumber, happend, htaken, hcounter⟩
  · rw [hsame, hcounter]
    exact hn
  · have hlast : rumors.last h.name =
        if r.origin = h.name then r.sequence else h.rumors.last h.name :=
      MessageStore.last_append? happend h.name
    rw [htaken, hcounter, hlast]
    split
    next ho =>
      have hnext : r.sequence = h.rumors.last r.origin + 1 :=
        (MessageStore.append?_eq_some_iff.1 happend).1
      rw [ho, ← hn] at hnext
      have hle : h.rumorCounter ≤ r.sequence := by
        rw [hnext] at hnumber ⊢
        exact UInt32.le_of_lt (lt_add_one_of_ne_zero hnumber)
      exact if_pos hle
    next => exact hn

theorem Numbered.handle (hn : h.Numbered) (w : Moment) (c : HubCommand) :
    (h.handle w c).1.Numbered := by
  show (h.obey w c).1.Numbered
  cases hc : h.offered? c with
  | none =>
    obtain ⟨hrumors, hcounter⟩ := obey_of_offered?_eq_none w hc
    unfold Numbered
    rw [hrumors, hcounter, (h.handles_obey w c).name]
    exact hn
  | some r =>
    rcases offered?_eq_some hc with ⟨sender, rfl, -⟩ | ⟨text, rfl, -⟩
    · exact hn.onPacket_rumor w sender r
    · exact hn.onRumorRequest text

theorem Numbered.after (hn : h.Numbered) (cs : List (Moment × HubCommand)) :
    (h.after cs).Numbered := by
  induction cs generalizing h with
  | nil => exact hn
  | cons c cs ih => exact ih (hn.handle c.1 c.2)

/-- **What a client asks for is stored**, however long it is. -/
theorem Numbered.log_handle (hn : h.Numbered) (w : Moment) (text : String) :
    (h.handle w (.client (.rumor text))).1.rumors.log h.name =
      h.rumors.log h.name ++ [⟨h.name, h.rumorCounter + 1, text⟩] := by
  obtain ⟨rumors, happend⟩ := hn.append?_own text
  have hrumors : (h.handle w (.client (.rumor text))).1.rumors = _ :=
    h.onRumorRequest_rumors text
  rw [hrumors, happend, Option.getD_some, MessageStore.log_append? happend]
  exact if_pos rfl

/-! ### Nodes that wait for a number -/

/-- **A log does not get past a number that does not come.**  Zero never comes from a peer, so no
log of another node gets past the last number either. -/
theorem length_after_lt {n : Nat} {cs : List (Moment × HubCommand)} (hname : h.name ≠ o)
    (hlength : h.rumors.length o < n)
    (hnone : ∀ c ∈ cs, ∀ x ∈ c.2.rumor?, x.origin = o → x.sequence ≠ 0 →
      x.sequence ≠ UInt32.ofNat n) :
    (h.after cs).rumors.length o < n := by
  induction cs generalizing h with
  | nil => exact hlength
  | cons c cs ih =>
    obtain ⟨w, c⟩ := c
    rw [List.forall_mem_cons] at hnone
    refine ih (by rw [handle_name]; exact hname) ?_ hnone.2
    rcases h.handle_rumors_cases w c with ⟨hsame, -⟩ | ⟨x, hx, happend, -⟩
    · rw [hsame]
      exact hlength
    · rw [MessageStore.length_append? happend]
      show (if x.origin = o then _ else _) < _
      split
      next ho =>
        -- it is a rumor of a peer, and not the one that does not come
        rcases offered?_eq_some hx with ⟨sender, rfl, hnumber⟩ | ⟨text, -, rfl⟩
        · have hnext : x.sequence = h.rumors.last x.origin + 1 :=
            (MessageStore.append?_eq_some_iff.1 happend).1
          rw [ho, MessageStore.last_add_one] at hnext
          refine lt_of_le_of_ne hlength fun hreached => hnone.1 x rfl ho hnumber ?_
          rw [hnext, ← hreached]
        · exact absurd ho hname
      next => exact hlength

end Hub

/-! ### Nodes from their start -/

/-- The hub of a node at the start. -/
def Swarm.Member.hub (m : Swarm.Member) : Hub := .new m.name m.address m.settings m.peers

namespace Hub

open Swarm (Member)

theorem built_hub (m : Member) : m.hub.rumors.Built := .empty

theorem numbered_hub (m : Member) : m.hub.Numbered := rfl

/-- **When there is a datagram of every stored rumor.**  All that a node stores from its start
on can be sent exactly if every rumor that it takes in, from clients or peers, is short
enough.  What clients ask for is taken in however long it is.  And of a rumor that is too
large nothing is sent to anyone, so that a node which is told only what was sent, and no
other rumor under its number, has fewer rumors of its origin for ever, and never more than there
are numbers. -/
theorem stored_travels_iff (m : Member) (cs : List (Moment × HubCommand)) :
    ((∀ o, ∀ r ∈ (m.hub.after cs).rumors.log o, r.Travels) ↔
      ∀ r ∈ m.hub.taken cs,
        45 + textSize r.origin + decimals r.sequence.toNat + textSize r.text ≤ maxPacketSize) ∧
    (∀ w text, ∃ n,
      ((m.hub.after cs).handle w (.client (.rumor text))).1.rumors.log m.name =
        (m.hub.after cs).rumors.log m.name ++ [⟨m.name, n, text⟩]) ∧
    ∀ o, ∀ r ∈ (m.hub.after cs).rumors.log o, ¬r.Travels →
      (∀ out : Outbound, out.packet = .rumor r → ∀ self peers, out.datagrams self peers = []) ∧
      ∀ (p : Member) (ds : List (Moment × HubCommand)), p.name ≠ o →
        (∀ d ∈ ds, ∀ x ∈ d.2.rumor?,
          x.Travels ∧ (x.origin = o → x.sequence = r.sequence → x = r)) →
        (p.hub.after ds).rumors.length o < 2 ^ 32 ∧
          (r.sequence ≠ 0 → (p.hub.after ds).rumors.length o < r.sequence.toNat) := by
  have hname : (m.hub.after cs).name = m.name := after_name cs
  refine ⟨?_, fun w text => ?_, fun o r hr hlarge => ⟨?_, fun p ds hp htold =>
    ⟨?_, fun hnumber => ?_⟩⟩⟩
  · constructor
    · intro hall r hr
      rw [← Rumor.travels_iff]
      exact hall r.origin r (mem_log_after_iff.2 (Or.inr ⟨hr, rfl⟩))
    · intro hall o r hr
      rcases mem_log_after_iff.1 hr with hr | hr
      · exact absurd hr List.not_mem_nil
      · exact r.travels_iff.2 (hall r hr.1)
  · rw [← hname]
    exact ⟨_, ((numbered_hub m).after cs).log_handle w text⟩
  · intro out hout self peers
    refine Outbound.datagrams_eq_nil ?_ self peers
    rw [hout]
    exact hlarge
  · exact length_after_lt hp (Nat.two_pow_pos 32) fun _ _ _ _ _ hne => hne
  · refine length_after_lt hp ?_ fun d hd x hx ho _ hn => ?_
    · exact Nat.pos_of_ne_zero fun hzero => hnumber (UInt32.toNat_inj.1 hzero)
    · rw [UInt32.ofNat_toNat] at hn
      obtain ⟨htravels, hsame⟩ := htold d hd x hx
      rw [hsame ho hn] at htravels
      exact hlarge htravels

/-! ### A text that is too long -/

/-- Clients ask for texts, one after the other. -/
def requests (texts : List (Moment × String)) : List (Moment × HubCommand) :=
  texts.map fun t => (t.1, .client (.rumor t.2))

theorem after_append (h : Hub) (cs ds : List (Moment × HubCommand)) :
    h.after (cs ++ ds) = (h.after cs).after ds := by
  induction cs generalizing h with
  | nil => rfl
  | cons c cs ih => exact ih _

/-- **All that clients ask for from the start on is stored in its order.** -/
theorem log_after_requests (m : Member) (texts : List (Moment × String)) :
    (m.hub.after (requests texts)).rumors.log m.name =
      texts.mapIdx fun k t => ⟨m.name, UInt32.ofNat (k + 1), t.2⟩ := by
  induction texts using List.reverseRecOn with
  | nil => rfl
  | append_singleton texts t ih =>
    have hname : (m.hub.after (requests texts)).name = m.name := after_name _
    have hn := (numbered_hub m).after (requests texts)
    have hcounter : (m.hub.after (requests texts)).rumorCounter = UInt32.ofNat texts.length := by
      rw [hn, hname, MessageStore.last, MessageStore.length, ih, List.length_mapIdx]
    have hlog := hn.log_handle t.1 t.2
    rw [hname, hcounter, ih] at hlog
    rw [requests, List.map_append, after_append, List.mapIdx_concat, UInt32.ofNat_add]
    exact hlog

/-- A text as long as a datagram. -/
def flood : String := String.ofList (List.replicate maxPacketSize 'x')

theorem textSize_flood : textSize flood = maxPacketSize := by
  have hchars : flood.toList = List.replicate maxPacketSize 'x' := String.toList_ofList
  rw [textSize_of_isPlain, hchars, List.length_replicate]
  intro c hc
  rw [hchars] at hc
  rw [List.eq_of_mem_replicate hc]
  rfl

theorem not_travels_flood (origin : String) (n : UInt32) :
    ¬(⟨origin, n, flood⟩ : Rumor).Travels := by
  refine Rumor.not_travels_of_lt ?_
  show 65461 < textSize origin + textSize flood
  rw [textSize_flood, maxPacketSize]
  omega

/-- A text that is too long is stored, and the one after it.  There is no datagram of the
first, so another node, which is told only what was sent, stores neither. -/
theorem unheard_after_flood :
    ((Swarm.Pair.members false).hub.after
        (requests [(Swarm.Pair.moment, flood), (Swarm.Pair.moment, "hi")])).rumors.log "a" =
        [⟨"a", 1, flood⟩, ⟨"a", 2, "hi"⟩] ∧
      (¬∃ bytes, (Packet.rumor ⟨"a", 1, flood⟩).encode = .ok bytes) ∧
      ∀ ds : List (Moment × HubCommand),
        (∀ d ∈ ds, ∀ x ∈ d.2.rumor?,
          x.Travels ∧ (x.origin = "a" → x.sequence = 1 → x = ⟨"a", 1, flood⟩)) →
        ((Swarm.Pair.members true).hub.after ds).rumors.log "a" = [] := by
  refine ⟨log_after_requests (Swarm.Pair.members false) _, not_travels_flood "a" 1,
    fun ds htold => MessageStore.length_eq_zero_iff.1 (Nat.lt_one_iff.1 ?_)⟩
  refine length_after_lt (n := 1) (by decide) (by decide)
    fun d hd x hx ho _ hnumber => ?_
  obtain ⟨htravels, hsame⟩ := htold d hd x hx
  rw [hsame ho hnumber] at htravels
  exact not_travels_flood "a" 1 htravels

end Hub

/-! ### Swarms that send datagrams -/

namespace Swarm

variable {ι : Type} [DecidableEq ι] {members : ι → Member} {s : Swarm ι} {i j : ι}

/-- The swarms in which a rumor comes only in a datagram. -/
inductive Carried (members : ι → Member) : Swarm ι → Prop
  | start : Carried members (new members)
  | step {s : Swarm ι} {e : Event ι} : Carried members s → s.Allows e →
      (∀ i w c, e = .told i w c → ∀ r ∈ c.rumor?, r.Travels) → Carried members (s.step e)

theorem Carried.reachable (hs : Carried members s) : Reachable members s := by
  induction hs with
  | start => exact .start
  | step _ he _ ih => exact ih.step he

/-- The rumors of a node are those from before the event, or it was told something. -/
theorem step_rumors_cases (s : Swarm ι) (e : Event ι) (i : ι) :
    ((s.step e).hubs i).rumors = (s.hubs i).rumors ∨
      ∃ w c, e = .told i w c ∧ ((s.step e).hubs i).rumors = ((s.hubs i).obey w c).1.rumors := by
  have hchange : ∀ {k : ι} {h : Hub} {packets : List Packet},
      (k = i → h.rumors = (s.hubs k).rumors) →
      ((s.change k h packets).hubs i).rumors = (s.hubs i).rumors := by
    intro k h packets hsame
    by_cases hki : k = i
    · subst hki
      rw [change_hubs_self, hsame rfl]
    · rw [change_hubs_of_ne (Ne.symm hki)]
  cases e with
  | told k w c =>
    by_cases hki : k = i
    · subst hki
      refine Or.inr ⟨w, c, rfl, ?_⟩
      rw [step, change_hubs_self]
    · exact Or.inl (hchange fun heq => absurd heq hki)
  | moved k w t m => exact Or.inl (hchange fun _ => rfl)
  | left k => exact Or.inl (hchange fun _ => rfl)

/-- A rumor that another node has stored came in a datagram. -/
theorem Carried.travels (hs : Carried members s) {o : String} (hi : (members i).name ≠ o)
    {r : Rumor} (hr : r ∈ (s.hubs i).rumors.log o) : r.Travels := by
  induction hs with
  | start => exact absurd hr List.not_mem_nil
  | @step s e hs _ hcarried ih =>
    rcases s.step_rumors_cases e i with hsame | ⟨w, c, rfl, hrumors⟩
    · exact ih (hsame ▸ hr)
    · rw [hrumors] at hr
      rcases ((s.hubs i).handles_obey w c).stores with hsame | ⟨x, happend, hx⟩
      · exact ih (hsame ▸ hr)
      · rw [MessageStore.log_append? happend] at hr
        split at hr
        next ho =>
          rcases List.mem_append.1 hr with hold | hnew
          · exact ih hold
          · -- the rumor that was stored is not an own one
            obtain rfl := List.mem_singleton.1 hnew
            refine hcarried i w c rfl r (hx.resolve_left fun hown => hi ?_).1
            exact (name_of_reachable hs.reachable i).symm.trans (hown.symm.trans ho)
        next => exact ih hr

/-- **No other node gets past the first rumor of a node that is too large**, as long as the numbers
last. -/
theorem Carried.log_prefix_takeWhile (hnames : Function.Injective fun i => (members i).name)
    (hs : Carried members s) (hij : i ≠ j)
    (hfew : (s.hubs j).rumors.length (members j).name ≤ 2 ^ 32) :
    (s.hubs i).rumors.log (members j).name <+:
      ((s.hubs j).rumors.log (members j).name).takeWhile fun r => r.Travels := by
  obtain ⟨rest, hrest⟩ := ((log_prefix_of_reachable hnames hs.reachable).1 j hfew).1 i
  have htravels : ∀ r ∈ (s.hubs i).rumors.log (members j).name, decide r.Travels = true :=
    fun r hr => decide_eq_true (hs.travels (fun hname => hij (hnames hname)) hr)
  rw [← hrest, List.takeWhile_append_of_pos htravels]
  exact List.prefix_append _ _

end Swarm
end GossipLedger
