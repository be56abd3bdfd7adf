import FerrisFerry.LogMatching
import FerrisFerry.Agreement
import FerrisFerry.Commit
import FerrisFerry.ReadBarrier
import FerrisFerry.Barriers
import FerrisFerry.Quorum
import FerrisFerry.Candidacy
import FerrisFerry.Voter
import FerrisFerry.Accept
import FerrisFerry.Repair
import FerrisFerry.Proposals
import FerrisFerry.Durability
import FerrisFerry.Application
import FerrisFerry.MemoryStorage
import FerrisFerry.FileDriver
import FerrisFerry.Fleet
import FerrisFerry.ReadWrites
import FerrisFerry.TcpTransport
import FerrisFerry.Connections
import FerrisFerry.Reorder
import FerrisFerry.Compaction
import FerrisFerry.Completeness
import FerrisFerry.Refinement
import FerrisFerry.TcpFleet
import FerrisFerry.Replicas
import FerrisFerry.Redirect
import FerrisFerry.Integrity
import FerrisFerry.Electable
import FerrisFerry.Followers
import FerrisFerry.Service
import FerrisFerry.Tasks
import FerrisFerry.Text
import FerrisFerry.Startup
