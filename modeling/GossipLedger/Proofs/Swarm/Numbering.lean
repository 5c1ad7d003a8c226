import GossipLedger.Proofs.Rumor.Reach
import GossipLedger.Proofs.Swarm.Eviction

/-!
# How a node numbers its own rumors

A node counts its own rumors, and it has a log of them.  The counter goes up when a client asks
for a rumor, and the rumor is then appended to the log.  But a peer may bring a rumor under the
name of the node as well, one that the node has forgotten or one that somebody made up.  If it is
the next one, it is appended like any other, and the counter follows.

So the counter is the length of the log, whatever clients and peers do, until there are no numbers
left.

## Main definitions

* `Swarm.hubAfter` — the hub of a node after a sequence of events.

## Main results

* `Swarm.hub_cases` — what an event does to a hub: it is told something, or only its mongers
  change.
* `Swarm.hubAfter_induction` — what every command keeps, and does not depend on the mongers, holds
  of the hubs of all nodes after any events.
* `Hub.Numbered.onRumorRequest_eq` — a client's rumor is appended and spread.
* `Hub.onPacket_counter_cases` — a packet moves the counter and the log together, or neither.
* `Swarm.counter_eq_last_of_run` — **the counter is the length of the log.**
-/

namespace GossipLedger
namespace Hub

variable {h : Hub}

/-- A client's rumor is appended and spread. -/
theorem Numbered.onRumorRequest_eq (hn : h.Numbered) (text : String) :
    h.rumors.append? (⟨h.name, h.rumorCounter + 1, text⟩ : Rumor) =
        some (h.onRumorRequest text).rumors ∧
      (h.onRumorRequest text).crew =
        h.crew.start (h.mongers + 1) ⟨h.name, h.rumorCounter + 1, text⟩ none := by
  obtain ⟨rumors, happend⟩ := hn.append?_own text
  unfold Hub.onRumorRequest
  dsimp only
  rw [happend]
  exact ⟨rfl, rfl⟩

/-- **A packet moves the counter and the log of own rumors together, or neither.** -/
theorem onPacket_counter_cases (w : Moment) (h : Hub) (sender : PeerAddress) (packet : Packet) :
    ((h.onPacket w sender packet).1.rumorCounter = h.rumorCounter ∧
        (h.onPacket w sender packet).1.rumors.log h.name = h.rumors.log h.name) ∨
      ∃ r, packet = .rumor r ∧ r.sequence = h.rumors.last h.name + 1 ∧
        (h.onPacket w sender packet).1.rumors.log h.name = h.rumors.log h.name ++ [r] ∧
        (h.onPacket w sender packet).1.rumorCounter = max h.rumorCounter r.sequence := by
  cases hc : h.offered? (.packet sender packet) with
  | none =>
    obtain ⟨hrumors, hcounter⟩ := obey_of_offered?_eq_none w hc
    refine Or.inl ⟨hcounter, ?_⟩
    show (h.obey w (.packet sender packet)).1.rumors.log h.name = _
    rw [hrumors]
  | some r =>
    obtain ⟨sender', heq, -⟩ | ⟨text, heq, -⟩ := offered?_eq_some hc
    · obtain ⟨rfl, rfl⟩ := HubCommand.packet.inj heq
      rcases h.onPacket_rumor_cases w sender r with
        ⟨-, hsame, hcounter⟩ | ⟨rumors, -, happend, htaken, hcounter⟩
      · exact Or.inl ⟨hcounter, by rw [hsame]⟩
      · have hnext : r.sequence = h.rumors.last r.origin + 1 :=
          (MessageStore.append?_eq_some_iff.1 happend).1
        rw [htaken, hcounter, MessageStore.log_append? happend]
        by_cases hown : r.origin = h.name
        · rw [hown] at hnext
          rw [if_pos hown]
          exact Or.inr ⟨r, rfl, hnext, if_pos hown, rfl⟩
        · rw [if_neg hown]
          exact Or.inl ⟨rfl, if_neg hown⟩
    · exact nomatch heq

end Hub

namespace Swarm

variable {ι : Type} [DecidableEq ι] {members : ι → Member} {es : List (Event ι)} {i : ι}

/-! ### Hubs in a run -/

/-- The hub of a node after a sequence of events. -/
def hubAfter (members : ι → Member) (es : List (Event ι)) (i : ι) : Hub :=
  ((new members).run es).hubs i

/-- **What an event does to a hub**: it is told something, or only its mongers change. -/
theorem hub_cases (s : Swarm ι) (e : Event ι) (i : ι) :
    ((∀ w c, e ≠ .told i w c) ∧ ∃ crew, (s.step e).hubs i = { s.hubs i with crew := crew }) ∨
      ∃ w c, e = .told i w c ∧ (s.step e).hubs i = ((s.hubs i).obey w c).1 := by
  have hother : ∀ {j : ι} {h : Hub} {packets : List Packet},
      j ≠ i → ∃ crew, (s.change j h packets).hubs i = { s.hubs i with crew := crew } :=
    fun hji => ⟨_, change_hubs_of_ne (Ne.symm hji)⟩
  cases e with
  | told j w c =>
    by_cases hji : j = i
    · subst hji
      exact Or.inr ⟨w, c, rfl, change_hubs_self⟩
    · exact Or.inl ⟨fun _ _ heq => hji (Event.told.inj heq).1, hother hji⟩
  | moved j w t m =>
    refine Or.inl ⟨fun _ _ heq => (nomatch heq), ?_⟩
    by_cases hji : j = i
    · subst hji
      exact ⟨_, change_hubs_self⟩
    · exact hother hji
  | left j =>
    refine Or.inl ⟨fun _ _ heq => (nomatch heq), ?_⟩
    by_cases hji : j = i
    · subst hji
      exact ⟨_, change_hubs_self⟩
    · exact hother hji

/-- **What every command keeps, and does not depend on the mongers, holds of the hubs of all nodes
after any events.** -/
theorem hubAfter_induction {P : Hub → Prop} (hstart : P (members i).hub)
    (htold : ∀ h w c, P h → P (h.obey w c).1) (hcrew : ∀ h crew, P h → P { h with crew := crew }) :
    P (hubAfter members es i) := by
  induction es using List.reverseRecOn with
  | nil => exact hstart
  | append_singleton es e ih =>
    unfold hubAfter
    rw [run_concat]
    rcases hub_cases ((new members).run es) e i with ⟨-, crew, heq⟩ | ⟨w, c, -, heq⟩
    · rw [heq]
      exact hcrew _ crew ih
    · rw [heq]
      exact htold _ w c ih

theorem hubAfter_name (members : ι → Member) (es : List (Event ι)) (i : ι) :
    (hubAfter members es i).name = (members i).name :=
  hubAfter_induction (P := fun h => h.name = (members i).name) rfl
    (fun h w c hname => (h.handles_obey w c).name.trans hname) fun _ _ hname => hname

/-- Own rumors are numbered on from the last one. -/
theorem hubAfter_numbered (members : ι → Member) (es : List (Event ι)) (i : ι) :
    (hubAfter members es i).Numbered :=
  hubAfter_induction (Hub.numbered_hub _) (fun _ w c h => h.handle w c) fun _ _ h => h

/-- All logs are built by appending. -/
theorem hubAfter_built (members : ι → Member) (es : List (Event ι)) (i : ι) :
    (hubAfter members es i).rumors.Built :=
  hubAfter_induction (P := fun h => h.rumors.Built) (Hub.built_hub _)
    (fun _ w c h => Hub.built_handle h w c) fun _ _ h => h

theorem hubAfter_told (w : Moment) (c : HubCommand) :
    hubAfter members (es ++ [.told i w c]) i = ((hubAfter members es i).obey w c).1 := by
  unfold hubAfter
  rw [run_concat]
  exact change_hubs_self

/-! ### The counter -/

/-- **The counter of a node's own rumors is the length of its own log**, after any requests of
clients, ticks and packets, also such that bring rumors under the name of the node, as long as
there are numbers left.  So each rumor that a client asks for is the next one; it is appended, and
a monger starts to spread it.  A packet leaves the counter and the log alone, or it brings the next
rumor and moves both. -/
theorem counter_eq_last_of_run (members : ι → Member) (es : List (Event ι)) (i : ι)
    (hroom : (hubAfter members es i).rumors.length (members i).name < 2 ^ 32 - 1) :
    (hubAfter members es i).rumorCounter.toNat =
        (hubAfter members es i).rumors.length (members i).name ∧
    (∀ w text, ∃ r : Rumor, r.origin = (members i).name ∧ r.text = text ∧
      r.sequence.toNat = (hubAfter members es i).rumors.length (members i).name + 1 ∧
      (hubAfter members es i).rumors.append? r =
        some (hubAfter members (es ++ [.told i w (.client (.rumor text))]) i).rumors ∧
      (hubAfter members (es ++ [.told i w (.client (.rumor text))]) i).crew =
        (hubAfter members es i).crew.start ((hubAfter members es i).mongers + 1) r none) ∧
    ∀ w sender packet,
      ((hubAfter members (es ++ [.told i w (.packet sender packet)]) i).rumorCounter =
          (hubAfter members es i).rumorCounter ∧
        (hubAfter members (es ++ [.told i w (.packet sender packet)]) i).rumors.log
            (members i).name =
          (hubAfter members es i).rumors.log (members i).name) ∨
      ∃ r, packet = .rumor r ∧
        (hubAfter members (es ++ [.told i w (.packet sender packet)]) i).rumors.log
            (members i).name =
          (hubAfter members es i).rumors.log (members i).name ++ [r] ∧
        (hubAfter members (es ++ [.told i w (.packet sender packet)]) i).rumorCounter =
          r.sequence ∧
        r.sequence.toNat = (hubAfter members es i).rumorCounter.toNat + 1 := by
  have hn := hubAfter_numbered members es i
  have hname := hubAfter_name members es i
  rw [← hname] at hroom ⊢
  have hlast : (hubAfter members es i).rumorCounter.toNat =
      (hubAfter members es i).rumors.length (hubAfter members es i).name := by
    rw [hn]
    exact MessageStore.toNat_last (by omega)
  -- the next number is not yet where they begin again
  have hnext : ((hubAfter members es i).rumors.last (hubAfter members es i).name + 1).toNat =
      (hubAfter members es i).rumors.length (hubAfter members es i).name + 1 := by
    rw [MessageStore.last_add_one]
    exact MessageStore.toNat_ofNat_of_lt (by omega)
  refine ⟨hlast, fun w text => ?_, fun w sender packet => ?_⟩
  · obtain ⟨happend, hcrew⟩ := hn.onRumorRequest_eq text
    rw [hubAfter_told]
    exact ⟨_, rfl, rfl, (congrArg (fun n => (n + 1).toNat) hn).trans hnext, happend, hcrew⟩
  · rw [hubAfter_told]
    rcases (hubAfter members es i).onPacket_counter_cases w sender packet with
      hsame | ⟨r, rfl, hnumber, hlog, hcounter⟩
    · exact Or.inl hsame
    · rw [← hnumber] at hnext
      have hle : (hubAfter members es i).rumorCounter ≤ r.sequence := by
        rw [UInt32.le_iff_toNat_le]
        omega
      refine Or.inr ⟨r, rfl, hlog, hcounter.trans (if_pos hle), ?_⟩
      rw [hlast, hnext]

/-- A node hears of two rumors of its own from a peer, the second of which is not the next one, and
its client then asks for one. -/
theorem counter_after_echoes :
    let echo (n : UInt32) : Event Bool :=
      .told false Pair.moment (.packet (Pair.address 2) (.rumor ⟨"a", n, "old"⟩))
    (hubAfter Pair.members [echo 1, echo 3] false).rumors.length "a" < 2 ^ 32 - 1 ∧
      (hubAfter Pair.members [echo 1, echo 3] false).rumorCounter.toNat =
        (hubAfter Pair.members [echo 1, echo 3] false).rumors.length "a" ∧
      (hubAfter Pair.members [echo 1, echo 3] false).rumorCounter = 1 ∧
      (hubAfter Pair.members ([echo 1, echo 3] ++
          [.told false Pair.moment (.client (.rumor "new"))]) false).rumors.log "a" =
        [⟨"a", 1, "old"⟩, ⟨"a", 2, "new"⟩] := by
  intro echo
  have hroom : (hubAfter Pair.members [echo 1, echo 3] false).rumors.length "a" < 2 ^ 32 - 1 := by
    decide +kernel
  have hlast := (counter_eq_last_of_run Pair.members [echo 1, echo 3] false hroom).1
  exact ⟨hroom, hlast, by decide +kernel, by decide +kernel⟩

end Swarm
end GossipLedger
