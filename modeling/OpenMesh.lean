import OpenMesh.Library.Runs
import OpenMesh.Library.Wire
import OpenMesh.Protocol.EnvelopeCodec
import OpenMesh.Net.Transport
import OpenMesh.Storage.Database
import OpenMesh.Storage.Lookup
import OpenMesh.Messaging.Operations
import OpenMesh.Messaging.Effects
import OpenMesh.Messaging.Sides
import OpenMesh.Messaging.Simulation
import OpenMesh.Messaging.Integrity
import OpenMesh.Messaging.Routes
import OpenMesh.Messaging.Paths
import OpenMesh.Messaging.Punching
import OpenMesh.Messaging.Agreement
import OpenMesh.Messaging.Crossing
import OpenMesh.Messaging.Recovery
import OpenMesh.Messaging.Consent
import OpenMesh.Messaging.Restart
import OpenMesh.Messaging.Resumption
import OpenMesh.Messaging.Isolation
import OpenMesh.Messaging.Decisions
import OpenMesh.Messaging.Deeds
import OpenMesh.Messaging.Lifetimes
import OpenMesh.Messaging.Stops
import OpenMesh.Messaging.Listings
import OpenMesh.Messaging.Failures
import OpenMesh.Messaging.Drops
import OpenMesh.Messaging.Nicknames
import OpenMesh.Messaging.Deliverable
import OpenMesh.Messaging.ReplayWindow
import OpenMesh.Crypto.Reference
import OpenMesh.Signaling.Registry
import OpenMesh.Signaling.Server
import OpenMesh.Signaling.Steps
import OpenMesh.Signaling.Routability
import OpenMesh.Signaling.Challenges
import OpenMesh.Signaling.Liveness
import OpenMesh.Signaling.Expiry
import OpenMesh.Signaling.Dialogue
import OpenMesh.Signaling.Registration
import OpenMesh.Net.Addresses
import OpenMesh.Net.Client
import OpenMesh.Signaling.Ownership
import OpenMesh.Storage.DatabaseCodec
import OpenMesh.Storage.Durability
import OpenMesh.Storage.Opening
import OpenMesh.Storage.Replacement
import OpenMesh.Storage.Tampering
import OpenMesh.Relay.Server
import OpenMesh.Cli.Names
import OpenMesh.Cli.Selection
import OpenMesh.Cli.Loops
import OpenMesh.Library.Budgets
import OpenMesh.Messaging.Probing
import OpenMesh.Protocol.Validation
import OpenMesh.Storage.Framing
import OpenMesh.Storage.Uniqueness
import OpenMesh.Signaling.Outputs
import OpenMesh.Messaging.SharedKeys
import OpenMesh.Net.Endpoints
import OpenMesh.Cli.HexKeys
import OpenMesh.Net.Sockets
import OpenMesh.Messaging.Records
import OpenMesh.Cli.Typing
import OpenMesh.Library.Windows
import OpenMesh.Relay.Traffic
import OpenMesh.Signaling.Traffic
import OpenMesh.System.Network
import OpenMesh.System.Conversation
import OpenMesh.Messaging.Secrecy
import OpenMesh.System.Introduction
import OpenMesh.Messaging.Survival
