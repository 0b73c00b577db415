import ReliableDatagram.Bytes.Lemmas
import ReliableDatagram.Service
import ReliableDatagram.Proofs.Indices
import ReliableDatagram.Proofs.Receiver.Stages
import ReliableDatagram.Proofs.Receiver.Window
import ReliableDatagram.Proofs.Receiver.Gaps
import ReliableDatagram.Proofs.Wire.Acknowledgement
import ReliableDatagram.Proofs.Wire.Packet
import ReliableDatagram.Proofs.Wire.Runs
import ReliableDatagram.Proofs.Link.Basic
import ReliableDatagram.Proofs.Link.Delivery
import ReliableDatagram.Proofs.Link.Keeping
import ReliableDatagram.Proofs.Link.Sequence
import ReliableDatagram.Proofs.Sender.Custody
import ReliableDatagram.Proofs.Sender.Log
import ReliableDatagram.Proofs.Sender.Reports
import ReliableDatagram.Proofs.Receiver.Drained
import ReliableDatagram.Proofs.Link.Completion
import ReliableDatagram.Proofs.Link.Transfer
import ReliableDatagram.Proofs.Link.InOrder
import ReliableDatagram.Proofs.Link.Halves
import ReliableDatagram.Proofs.Link.Shuffled
import ReliableDatagram.Proofs.Session.Ended
import ReliableDatagram.Proofs.Session.Farewell
import ReliableDatagram.Proofs.Session.Parting
import ReliableDatagram.Proofs.Host.Notices
import ReliableDatagram.Proofs.Host.Closing
import ReliableDatagram.Proofs.Host.Separation
import ReliableDatagram.Proofs.Receiver.Range
import ReliableDatagram.Proofs.Wire.Handshake
import ReliableDatagram.Proofs.Wire.Control
import ReliableDatagram.Proofs.Sender.Lengths
import ReliableDatagram.Proofs.Sender.Queueing
import ReliableDatagram.Proofs.Sender.Overdue
import ReliableDatagram.Proofs.Receiver.Parts
import ReliableDatagram.Proofs.Receiver.Ordered
import ReliableDatagram.Proofs.Link.Promptness
import ReliableDatagram.Proofs.Receiver.Independence
import ReliableDatagram.Proofs.Host.Blocking
import ReliableDatagram.Proofs.Host.Welcome
import ReliableDatagram.Proofs.Receiver.Acceptance
import ReliableDatagram.Proofs.Wire.Records
import ReliableDatagram.Proofs.Wire.Spelling
import ReliableDatagram.Proofs.Host.Malformed
