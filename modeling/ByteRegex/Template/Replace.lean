import ByteRegex.Search.Stream
import ByteRegex.Template.Basic

/-!
# Replacing matches

The matches of a subject are replaced by a template that is filled in for each of them; the bytes
around the matches stay.
-/

namespace ByteRegex

namespace MatchStream

/-- Replaces the matches that at most `n` calls of `next` yield. What has been written so far is
`out`; it covers the subject up to the offset `copied`. -/
def replaceUpTo (stream : MatchStream) (template : Template) (subject out : ByteArray)
    (copied : Nat) (events : Array Event) : (n : Nat) → Logged (Except RegexError ByteArray)
  | 0 => { value := .ok (out ++ subject.extract copied subject.size), events := events.toList }
  | n + 1 =>
    match stream.next with
    | ⟨none, moreEvents, _⟩ =>
      { value := .ok (out ++ subject.extract copied subject.size)
        events := (events ++ moreEvents).toList }
    | ⟨some (.error e), moreEvents, _⟩ =>
      { value := .error e, events := (events ++ moreEvents).toList }
    | ⟨some (.ok m), moreEvents, rest⟩ =>
      let out := template.expand subject m (out ++ subject.extract copied m.span.start)
      replaceUpTo rest template subject out m.span.stop (events ++ moreEvents) n

end MatchStream

namespace Matcher

/-- Replaces all the matches of the subject, or only the first one, by the template. The template is
checked before anything is searched for. -/
def replace (m : Matcher) (subject template : ByteArray) (isGlobal : Bool) :
    Logged (Except RegexError ByteArray) :=
  let template := Template.ofBytes template.data.toList
  match template.check m.captureCount with
  | .error e => { value := .error (.template e) }
  | .ok () =>
    let stream := m.stream subject
    let calls := if isGlobal then stream.callBound else 1
    stream.replaceUpTo template subject .empty 0 #[] calls

end Matcher

end ByteRegex
